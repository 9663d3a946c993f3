import DeskScript.Proofs.Syntax.Phrase
import DeskScript.Text.Search

set_option autoImplicit false

/-!
# Dotted names

One or more names joined by points. Where a name begins, the scanner takes a dotted name, as long as it can be, and
splitting that at its points gives the names again. This holds whatever characters may begin a name, as long as they are
among those that can.
-/

namespace DeskScript

open DeskScript.Text

namespace Text

variable {sep : Char} {xs : List Char}

theorem splitAux_part (hxs : sep ∉ xs) (part : List Char) (parts : List (List Char)) (rest : List Char) :
    splitAux [sep] 0 part parts (xs ++ rest) = splitAux [sep] 0 (xs.reverse ++ part) parts rest := by
  induction xs generalizing part with
  | nil => rfl
  | cons c xs ih =>
    obtain ⟨hc, hxs⟩ := not_or.1 (mt List.mem_cons.2 hxs)
    have hplain : [sep].isPrefixOf (c :: (xs ++ rest)) = false := by simp [List.isPrefixOf, hc]
    rw [List.cons_append, splitAux, hplain, if_neg Bool.false_ne_true, ih hxs]
    simp

theorem splitAux_sep (part : List Char) (parts : List (List Char)) (rest : List Char) :
    splitAux [sep] 0 part parts (sep :: rest) = splitAux [sep] 0 [] (part.reverse :: parts) rest := by
  simp [splitAux]

/-- Parts are found again at the separators between them. -/
theorem splitBy_joined (hxs : sep ∉ xs) (yss : List (List Char)) (hyss : ∀ ys ∈ yss, sep ∉ ys) :
    splitBy [sep] (xs ++ yss.flatMap (sep :: ·)) = xs :: yss := by
  have hsplit (parts : List (List Char)) :
      splitAux [sep] 0 [] parts (xs ++ yss.flatMap (sep :: ·)) = parts.reverse ++ xs :: yss := by
    induction yss generalizing xs parts with
    | nil =>
      rw [List.flatMap_nil, splitAux_part hxs]
      simp [splitAux]
    | cons ys yss ih =>
      obtain ⟨hys, hyss⟩ := List.forall_mem_cons.1 hyss
      rw [List.flatMap_cons, splitAux_part hxs, List.cons_append, splitAux_sep, ih hys hyss]
      simp
  exact hsplit []

end Text

theorem Name.all_nameChar (n : Name) : ∀ c ∈ n.chars, isNameChar c = true :=
  List.forall_mem_cons.2 ⟨isNameChar_of_isNameStart _ n.first_start, n.rest_char⟩

theorem Name.no_point (n : Name) : '.' ∉ n.chars := fun h => absurd (n.all_nameChar '.' h) (by decide)

structure DottedName where
  first : Name
  more : List Name

namespace DottedName

def names (d : DottedName) : List Name := d.first :: d.more

def chars (d : DottedName) : List Char := d.first.chars ++ d.more.flatMap fun n => '.' :: n.chars

def text (d : DottedName) : String := String.ofList d.chars

theorem split_text (d : DottedName) : splitAtChar '.' d.text = d.names.map Name.text := by
  have hsplit := splitBy_joined d.first.no_point (d.more.map Name.chars)
    (by simpa using fun n _ => n.no_point)
  rw [List.flatMap_map] at hsplit
  rw [splitAtChar, text, String.toList_ofList, chars, hsplit, ← List.map_cons (f := Name.chars), List.map_map]
  rfl

/-- The names with points between them are the dotted name. -/
theorem intercalate_names (d : DottedName) (lead : String) :
    (".".intercalate ((lead ++ d.first.text) :: d.more.map Name.text)).toList = lead.toList ++ d.chars := by
  have hjoin (s : String) (ns : List Name) : (".".intercalate (s :: ns.map Name.text)).toList =
      s.toList ++ ns.flatMap fun n => '.' :: n.chars := by
    induction ns generalizing s with
    | nil => simp
    | cons n ns ih =>
      rw [List.map_cons, String.intercalate_cons_cons, String.toList_append, String.toList_append, ih]
      simp [Name.text]
  rw [hjoin, String.toList_append, Name.text, String.toList_ofList, List.append_assoc, chars]

end DottedName

namespace Token

variable {isStart : Char → Bool}

def stopsName (isStart : Char → Bool) : List Char → Bool
  | [] => true
  | c :: rest => !(isNameChar c || (c = '.' && beginsWith isStart rest))

theorem dottedSpan_stops (isStart : Char → Bool) (cs : List Char) :
    stopsName isStart (dottedSpan isStart cs).2 = true := by
  induction cs with
  | nil => rfl
  | cons c rest ih =>
    by_cases h : (isNameChar c || (c = '.' && beginsWith isStart rest)) = true
    · simp [dottedSpan, h, ih]
    · simp [dottedSpan, h, stopsName]

theorem dottedSpan_of_stops {isStart : Char → Bool} {cs : List Char} (h : stopsName isStart cs = true) :
    dottedSpan isStart cs = ([], cs) := by
  cases cs with
  | nil => rfl
  | cons c rest =>
    have hc : (isNameChar c || (c = '.' && beginsWith isStart rest)) = false := by
      rwa [stopsName, Bool.not_eq_true'] at h
    simp only [dottedSpan, hc, Bool.false_eq_true, if_false]

theorem dottedSpan_cons {c : Char} {rest : List Char}
    (h : isNameChar c = true ∨ c = '.' ∧ beginsWith isStart rest = true) :
    dottedSpan isStart (c :: rest) = (c :: (dottedSpan isStart rest).1, (dottedSpan isStart rest).2) := by
  rw [dottedSpan, if_pos (by simpa using h)]

theorem dottedSpan_names {cs rest : List Char} (hcs : ∀ c ∈ cs, isNameChar c = true) :
    dottedSpan isStart (cs ++ rest) = (cs ++ (dottedSpan isStart rest).1, (dottedSpan isStart rest).2) := by
  induction cs with
  | nil => rfl
  | cons c cs ih =>
    obtain ⟨hc, hcs⟩ := List.forall_mem_cons.1 hcs
    rw [List.cons_append, dottedSpan_cons (.inl hc), ih hcs]
    rfl

theorem beginsWith_dotted (d : DottedName) (rest : List Char) : beginsWith isNameStart (d.chars ++ rest) = true :=
  d.first.first_start

theorem dottedSpan_dotted {d : DottedName} (hd : ∀ n ∈ d.more, isStart n.first = true) {rest : List Char}
    (hrest : stopsName isStart rest = true) : dottedSpan isStart (d.chars ++ rest) = (d.chars, rest) := by
  have hmore (ns : List Name) (hns : ∀ n ∈ ns, isStart n.first = true) :
      dottedSpan isStart (ns.flatMap (fun n => '.' :: n.chars) ++ rest) =
        (ns.flatMap fun n => '.' :: n.chars, rest) := by
    induction ns with
    | nil => exact dottedSpan_of_stops hrest
    | cons n ns ih =>
      obtain ⟨hn, hns⟩ := List.forall_mem_cons.1 hns
      have hpoint : beginsWith isStart (n.chars ++ (ns.flatMap (fun n => '.' :: n.chars) ++ rest)) = true := hn
      rw [List.flatMap_cons, List.append_assoc, List.cons_append, dottedSpan_cons (.inr ⟨rfl, hpoint⟩),
        dottedSpan_names n.all_nameChar, ih hns]
      simp
  rw [DottedName.chars, List.append_assoc, dottedSpan_names d.first.all_nameChar, hmore d.more hd]

/-- What is read of any text is a part without a point, and names behind points. -/
theorem exists_parts (hstart : ∀ c, isStart c = true → isNameStart c = true) (cs : List Char) :
    ∃ (xs : List Char) (ns : List Name), (dottedSpan isStart cs).1 = xs ++ ns.flatMap (fun n => '.' :: n.chars) ∧
      (∀ c ∈ xs, isNameChar c = true) ∧ ∀ n ∈ ns, isStart n.first = true := by
  induction cs with
  | nil => exact ⟨[], [], rfl, by simp, by simp⟩
  | cons c rest ih =>
    obtain ⟨xs, ns, hread, hxs, hns⟩ := ih
    by_cases hname : isNameChar c = true
    · exact ⟨c :: xs, ns, by rw [dottedSpan_cons (.inl hname), hread]; rfl, List.forall_mem_cons.2 ⟨hname, hxs⟩, hns⟩
    by_cases hpoint : c = '.' ∧ beginsWith isStart rest = true
    -- the part behind the point begins a name
    · obtain ⟨d, rest, rfl⟩ : ∃ d rest', rest = d :: rest' := by
        cases rest with
        | nil => simp [beginsWith] at hpoint
        | cons d rest => exact ⟨d, rest, rfl⟩
      have hd : isStart d = true := hpoint.2
      have hbegins : d :: (dottedSpan isStart rest).1 = xs ++ ns.flatMap fun n => '.' :: n.chars := by
        rw [← hread, dottedSpan_cons (.inl (isNameChar_of_isNameStart d (hstart d hd)))]
      rw [dottedSpan_cons (.inr hpoint), hread, hpoint.1]
      cases xs with
      | cons x xs =>
        obtain rfl : d = x := (List.cons.inj hbegins).1
        obtain ⟨_, hxs⟩ := List.forall_mem_cons.1 hxs
        exact ⟨[], ⟨d, xs, hstart d hd, hxs⟩ :: ns, rfl, by simp, List.forall_mem_cons.2 ⟨hd, hns⟩⟩
      | nil =>
        cases ns with
        | nil => cases hbegins
        | cons n ns =>
          obtain rfl : d = '.' := (List.cons.inj hbegins).1
          exact absurd (hstart '.' hd) (by decide)
    · refine ⟨[], [], ?_, by simp, by simp⟩
      rw [dottedSpan_of_stops (by simpa [stopsName, hname] using Decidable.not_and_iff_or_not.1 hpoint)]
      rfl

/-- What is read where a name may begin is a dotted name. -/
theorem exists_dotted (hstart : ∀ c, isStart c = true → isNameStart c = true) {cs : List Char}
    (hcs : beginsWith isStart cs = true) :
    ∃ d : DottedName, (dottedSpan isStart cs).1 = d.chars ∧ ∀ n ∈ d.names, isStart n.first = true := by
  cases cs with
  | nil => simp [beginsWith] at hcs
  | cons c cs =>
    have hc : isStart c = true := hcs
    obtain ⟨xs, ns, hread, hxs, hns⟩ := exists_parts hstart cs
    refine ⟨⟨⟨c, xs, hstart c hc, hxs⟩, ns⟩, ?_, List.forall_mem_cons.2 ⟨hc, hns⟩⟩
    rw [dottedSpan_cons (.inl (isNameChar_of_isNameStart c (hstart c hc))), hread]
    rfl

end Token

end DeskScript
