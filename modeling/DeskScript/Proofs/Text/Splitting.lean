import DeskScript.Text.Search
import Mathlib.Data.List.Infix

set_option autoImplicit false

/-!
# Splitting and replacing

Splitting and replacing pass over the same occurrences, from the left and without overlap. So the parts with the separator
between them are the text again, with something else between them they are the text with its occurrences replaced, and no
part has an occurrence left in it. Where the separator is one character, the text has no other parts without it. Main
statements: `Text.intercalate_splitBy`, `Text.splitBy_free`, `Text.splitBy_intercalate`,
`Text.replaceEach_eq_intercalate`.
-/

namespace DeskScript.Text

variable {sep new : List Char}

theorem intercalate_append (sep : List Char) {xs ys : List (List Char)} (hxs : xs ≠ []) (hys : ys ≠ []) :
    sep.intercalate (xs ++ ys) = sep.intercalate xs ++ (sep ++ sep.intercalate ys) := by
  induction xs with
  | nil => exact absurd rfl hxs
  | cons x xs ih =>
    rw [List.cons_append, List.intercalate_cons_of_ne_nil (List.append_ne_nil_of_right_ne_nil xs hys)]
    by_cases hlast : xs = []
    · simp [hlast]
    · rw [ih hlast, List.intercalate_cons_of_ne_nil hlast]
      simp only [List.append_assoc]

theorem intercalate_snoc (sep : List Char) (parts : List (List Char)) (part last : List Char) :
    sep.intercalate (parts ++ [part, last]) = sep.intercalate (parts ++ [part]) ++ (sep ++ last) := by
  rw [List.append_cons, intercalate_append sep (by simp) (by simp), List.intercalate_singleton]

/-- What is added to the last part stands behind what is joined. -/
theorem intercalate_last (sep : List Char) (parts : List (List Char)) (part more : List Char) :
    sep.intercalate (parts ++ [part ++ more]) = sep.intercalate (parts ++ [part]) ++ more := by
  by_cases hnone : parts = []
  · simp [hnone]
  · rw [intercalate_append sep hnone (by simp), intercalate_append sep hnone (by simp), List.intercalate_singleton,
      List.intercalate_singleton, List.append_assoc, List.append_assoc]

section Char

variable {c d : Char} {ps qs : List (List Char)}

theorem intercalate_cons (sep p : List Char) (ps : List (List Char)) :
    sep.intercalate (p :: ps) = p ++ ps.flatMap (sep ++ ·) := by
  induction ps generalizing p with
  | nil => simp
  | cons q ps ih => rw [List.intercalate_cons_cons, ih, List.flatMap_cons, List.append_assoc, List.append_assoc]

theorem mem_intercalate (h : d ∈ [c].intercalate ps) : d = c ∨ ∃ p ∈ ps, d ∈ p := by
  cases ps with
  | nil => simp at h
  | cons p ps =>
    rw [intercalate_cons, List.mem_append, List.mem_flatMap] at h
    rcases h with hfirst | ⟨q, hq, hd⟩
    · exact .inr ⟨p, List.mem_cons_self, hfirst⟩
    · exact (List.mem_cons.1 hd).imp id fun hd => ⟨q, List.mem_cons_of_mem p hq, hd⟩

theorem mem_intercalate_of_mem {p : List Char} (hp : p ∈ ps) (hd : d ∈ p) : d ∈ [c].intercalate ps := by
  cases ps with
  | nil => exact absurd hp List.not_mem_nil
  | cons q ps =>
    rw [intercalate_cons, List.mem_append, List.mem_flatMap]
    rcases List.mem_cons.1 hp with rfl | hp
    · exact .inl hd
    · exact .inr ⟨p, hp, List.mem_append_right _ hd⟩

/-- The separator stands between each two parts and nowhere else. -/
theorem count_intercalate (hps : ∀ p ∈ ps, c ∉ p) : ([c].intercalate ps).count c = ps.length - 1 := by
  cases ps with
  | nil => rfl
  | cons p ps =>
    obtain ⟨hp, hps⟩ := List.forall_mem_cons.1 hps
    have hone : ∀ q ∈ ps, (List.count c ∘ ([c] ++ ·)) q = 1 := fun q hq => by
      simp [List.count_eq_zero.2 (hps q hq)]
    rw [intercalate_cons, List.count_append, List.count_eq_zero.2 hp, List.count_flatMap, List.map_congr_left hone]
    simp

/-- Where a text goes on with a character for the first time, it is parted in one way only. -/
theorem append_inj_of_not_mem {p q more other : List Char} (hp : c ∉ p) (hq : c ∉ q)
    (hmore : ∀ d ∈ more.head?, d = c) (hother : ∀ d ∈ other.head?, d = c) (h : p ++ more = q ++ other) :
    p = q ∧ more = other := by
  have hfront {r rest : List Char} (hr : c ∉ r) (hrest : ∀ d ∈ rest.head?, d = c) :
      (r ++ rest).takeWhile (· ≠ c) = r := by
    rw [List.takeWhile_append_of_pos (fun d hd => decide_eq_true (ne_of_mem_of_not_mem hd hr))]
    cases rest with
    | nil => simp
    | cons d rest => simp [hrest d rfl]
  have hsame : p = q := by rw [← hfront hp hmore, h, hfront hq hother]
  exact ⟨hsame, List.append_cancel_left (hsame ▸ h)⟩

theorem flatMap_inj (hps : ∀ p ∈ ps, c ∉ p) (hqs : ∀ q ∈ qs, c ∉ q)
    (h : ps.flatMap ([c] ++ ·) = qs.flatMap ([c] ++ ·)) : ps = qs := by
  induction ps generalizing qs with
  | nil =>
    cases qs with
    | nil => rfl
    | cons q qs => simp at h
  | cons p ps ih =>
    cases qs with
    | nil => simp at h
    | cons q qs =>
      obtain ⟨hp, hps⟩ := List.forall_mem_cons.1 hps
      obtain ⟨hq, hqs⟩ := List.forall_mem_cons.1 hqs
      rw [List.flatMap_cons, List.flatMap_cons, List.append_assoc, List.append_assoc] at h
      have hhead (rs : List (List Char)) : ∀ d ∈ (rs.flatMap ([c] ++ ·)).head?, d = c := by
        cases rs <;> simp
      obtain ⟨hsame, hrest⟩ := append_inj_of_not_mem hp hq (hhead ps) (hhead qs) (List.append_cancel_left h)
      rw [hsame, ih hps hqs hrest]

/-- A text is joined from parts without the separator in one way only. -/
theorem intercalate_inj (hps : ∀ p ∈ ps, c ∉ p) (hqs : ∀ q ∈ qs, c ∉ q) (hsome : ps ≠ []) (hother : qs ≠ [])
    (h : [c].intercalate ps = [c].intercalate qs) : ps = qs := by
  -- A separator in front makes the first part like the others.
  have hcons {rs : List (List Char)} (hrs : rs ≠ []) : rs.flatMap ([c] ++ ·) = c :: [c].intercalate rs := by
    cases rs with
    | nil => exact absurd rfl hrs
    | cons r rs => rw [intercalate_cons, List.flatMap_cons]; rfl
  exact flatMap_inj hps hqs (by rw [hcons hsome, hcons hother, h])

end Char

theorem eq_append_of_prefix {c : Char} {rest : List Char} (hsep : sep ≠ []) (hfirst : sep.isPrefixOf (c :: rest) = true) :
    c :: rest = sep ++ rest.drop (sep.length - 1) := by
  obtain ⟨back, hback⟩ := List.isPrefixOf_iff_prefix.1 hfirst
  cases sep with
  | nil => exact absurd rfl hsep
  | cons d sep =>
    obtain ⟨rfl, rfl⟩ := List.cons.inj hback
    simp

/-- While a text is split, the finished parts and the rest of the text make up the text. -/
theorem intercalate_splitAux (hsep : sep ≠ []) (skip : Nat) (part : List Char) (parts : List (List Char))
    (text : List Char) : sep.intercalate (splitAux sep skip part parts text) =
      sep.intercalate (parts.reverse ++ [part.reverse ++ text.drop skip]) := by
  fun_induction splitAux sep skip part parts text with
  | case1 skip part parts => simp
  | case2 skip part parts c rest ih => exact ih
  | case3 part parts c rest hfirst ih =>
    rw [ih, List.reverse_cons, List.append_assoc, List.drop_zero, eq_append_of_prefix hsep hfirst, intercalate_last]
    exact intercalate_snoc sep _ _ _
  | case4 part parts c rest hfirst ih => simpa using ih

/-- The parts with the separator between them are the text. -/
theorem intercalate_splitBy (hsep : sep ≠ []) (text : List Char) : sep.intercalate (splitBy sep text) = text := by
  rw [splitBy, intercalate_splitAux hsep]
  simp

theorem free_of_starts {part text : List Char} (hsep : sep ≠ [])
    (hpart : ∀ i < part.length, ¬sep <+: (part ++ text).drop i) : ¬sep <:+: part := by
  rintro ⟨front, back, rfl⟩
  have hsome := List.length_pos_iff.2 hsep
  refine hpart front.length (by simp only [List.length_append]; omega) ?_
  rw [List.append_assoc, List.append_assoc, List.drop_left]
  exact List.prefix_append _ _

/-- While a text is split, no separator is in a finished part and none begins in the current one. -/
theorem splitAux_free (hsep : sep ≠ []) (skip : Nat) (part : List Char) (parts : List (List Char)) (text : List Char)
    (hparts : ∀ p ∈ parts, ¬sep <:+: p)
    (hpart : ∀ i < part.reverse.length, ¬sep <+: (part.reverse ++ text.drop skip).drop i) :
    ∀ p ∈ splitAux sep skip part parts text, ¬sep <:+: p := by
  fun_induction splitAux sep skip part parts text with
  | case1 skip part parts =>
    have hall : ∀ p ∈ part.reverse :: parts, ¬sep <:+: p :=
      List.forall_mem_cons.2 ⟨free_of_starts hsep hpart, hparts⟩
    exact fun p hp => hall p (List.mem_reverse.1 hp)
  | case2 skip part parts c rest ih => exact ih hparts hpart
  | case3 part parts c rest hfirst ih =>
    exact ih (List.forall_mem_cons.2 ⟨free_of_starts hsep hpart, hparts⟩) nofun
  | case4 part parts c rest hfirst ih =>
    refine ih hparts fun i hi => ?_
    rw [List.reverse_cons, List.append_assoc]
    rw [List.length_reverse, List.length_cons] at hi
    rcases Nat.lt_succ_iff_lt_or_eq.1 hi with hbefore | rfl
    · exact hpart i (by rwa [List.length_reverse])
    · rw [List.drop_left' List.length_reverse]
      exact mt List.isPrefixOf_iff_prefix.2 hfirst

theorem splitBy_free (hsep : sep ≠ []) (text : List Char) : ∀ p ∈ splitBy sep text, ¬sep <:+: p :=
  splitAux_free hsep 0 [] [] text nofun nofun

theorem splitBy_ne_nil (sep text : List Char) : splitBy sep text ≠ [] := by
  have haux (skip : Nat) (part : List Char) (parts : List (List Char)) (text : List Char) :
      splitAux sep skip part parts text ≠ [] := by
    fun_induction splitAux sep skip part parts text with
    | case1 => simp
    | case2 _ _ _ _ _ ih => exact ih
    | case3 _ _ _ _ _ ih => exact ih
    | case4 _ _ _ _ _ ih => exact ih
  exact haux 0 [] [] text

theorem not_mem_of_splitBy {c : Char} {p text : List Char} (hp : p ∈ splitBy [c] text) : c ∉ p :=
  mt (List.singleton_infix_iff c p).2 (splitBy_free (List.cons_ne_nil c []) text p hp)

/-- Parts without the separator come back when they are joined and split. -/
theorem splitBy_intercalate {c : Char} {ps : List (List Char)} (hps : ∀ p ∈ ps, c ∉ p) (hsome : ps ≠ []) :
    splitBy [c] ([c].intercalate ps) = ps :=
  intercalate_inj (fun _ => not_mem_of_splitBy) hps (splitBy_ne_nil _ _) hsome
    (intercalate_splitBy (List.cons_ne_nil c []) _)

/-- While occurrences are replaced, what is written is what is split off, with the new text between the parts. -/
theorem replaceAux_eq (needle new : List Char) (skip : Nat) (part : List Char) (parts : List (List Char))
    (text : List Char) : replaceAux needle new skip (new.intercalate (parts.reverse ++ [part.reverse])).reverse text =
      new.intercalate (splitAux needle skip part parts text) := by
  fun_induction splitAux needle skip part parts text with
  | case1 skip part parts => simp [replaceAux]
  | case2 skip part parts c rest ih => rw [← ih, replaceAux]
  | case3 part parts c rest hfirst ih =>
    rw [← ih, replaceAux, if_pos hfirst, ← List.reverse_append, List.reverse_cons, List.append_assoc]
    have hsnoc := intercalate_snoc new parts.reverse part.reverse []
    rw [List.append_nil] at hsnoc
    rw [← hsnoc]
    rfl
  | case4 part parts c rest hfirst ih =>
    rw [← ih, replaceAux, if_neg hfirst, List.reverse_cons, intercalate_last, List.reverse_append]
    rfl

/-- The text with its occurrences replaced is made up of the parts between them. -/
theorem replaceEach_eq_intercalate (text needle new : List Char) :
    replaceEach text needle new = new.intercalate (splitBy needle text) := by
  have hreplaced := replaceAux_eq needle new 0 [] [] text
  rw [List.reverse_nil, List.nil_append, List.intercalate_singleton, List.reverse_nil] at hreplaced
  exact hreplaced

end DeskScript.Text
