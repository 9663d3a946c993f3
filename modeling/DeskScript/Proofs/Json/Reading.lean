import DeskScript.Proofs.Json.Scalar
import DeskScript.Proofs.Value.Unfolding

set_option autoImplicit false

/-!
# JSON texts are read back

The text of a sound tree is read to the plain data of the tree, whatever the layout. The induction is on the tree: a value
is read from the front of a text, what follows is left as it is, and the length of the text bounds the depth of the
reading. Main statement: `Tree.Sound.document`.
-/

namespace DeskScript

open Number Text

namespace Json

variable {indent : Indent} {level : Nat} {cs rest : List Char}

theorem lineBreak_blank (indent : Indent) (level : Nat) : ∀ c ∈ (lineBreak indent level).toList, standard.blank c = true := by
  intro c hc
  cases indent with
  | none => cases hc
  | some n =>
    rw [lineBreak, String.toList_append] at hc
    rcases List.mem_append.1 hc with hc | hc
    · rw [List.mem_singleton.1 hc]
      rfl
    · rw [String.toList_ofList] at hc
      rw [List.eq_of_mem_replicate hc]
      rfl

theorem skipBlanks_lineBreak (indent : Indent) (level : Nat) (h : Breaks standard.blank cs) :
    skipBlanks standard ((lineBreak indent level).toList ++ cs) = cs := by
  rw [skipBlanks, List.dropWhile_append_of_pos (lineBreak_blank indent level), h.dropWhile]

theorem skipBlanks_of_breaks (h : Breaks standard.blank cs) : skipBlanks standard cs = cs := h.dropWhile

theorem breaks_lineBreak (indent : Indent) (level : Nat) (h : Breaks inNumber cs) :
    Breaks inNumber ((lineBreak indent level).toList ++ cs) := by
  cases indent with
  | none => exact h
  | some n =>
    rw [lineBreak, String.toList_append]
    exact breaks_cons (by decide)

def joined (indent : Indent) (level : Nat) (texts : List String) : List Char :=
  (("," ++ lineBreak indent level).intercalate texts).toList

theorem joined_singleton (s : String) : joined indent level [s] = s.toList := by
  rw [joined, String.intercalate_singleton]

theorem joined_cons_cons (s s' : String) (more : List String) : joined indent level (s :: s' :: more) =
    s.toList ++ ',' :: ((lineBreak indent level).toList ++ joined indent level (s' :: more)) := by
  rw [joined, String.intercalate_cons_cons]
  simp only [joined, String.toList_append, List.append_assoc]
  rfl

theorem bracketed_nil (opening closing : String) : (bracketed indent level opening closing []).toList =
    opening.toList ++ closing.toList := by
  rw [bracketed, List.isEmpty_nil, if_pos rfl, String.toList_append]

theorem bracketed_cons (opening closing s : String) (more : List String) :
    (bracketed indent level opening closing (s :: more)).toList = opening.toList ++
      ((lineBreak indent (level + 1)).toList ++ (joined indent (level + 1) (s :: more) ++
        ((lineBreak indent level).toList ++ closing.toList))) := by
  rw [bracketed, List.isEmpty_cons, if_neg Bool.false_ne_true]
  simp only [joined, String.toList_append, List.append_assoc]

def opens (c : Char) : Bool := !standard.blank c && c != ']' && c != '}' && c.toNat != 0xFEFF

theorem opens_digit {c : Char} (h : isAsciiDigit c = true) : opens c = true := by
  have hall : ∀ d < 10, opens (Nat.digitChar d) = true := by decide
  obtain ⟨d, hd, rfl⟩ := exists_digitChar h
  exact hall d hd

def Opens (cs : List Char) : Prop := ∃ c rest, cs = c :: rest ∧ opens c = true

theorem Opens.append (h : Opens cs) : Opens (cs ++ rest) := by
  obtain ⟨c, cs, rfl, hc⟩ := h
  exact ⟨c, cs ++ rest, rfl, hc⟩

theorem Opens.breaks (h : Opens cs) : Breaks standard.blank cs := by
  obtain ⟨c, cs, rfl, hc⟩ := h
  refine breaks_cons (Bool.eq_false_iff.2 fun hblank => ?_)
  rw [opens, hblank] at hc
  cases hc

theorem opens_spelling (n : Spelling) : Opens n.text := by
  obtain ⟨c, cs, hdigit, htext | htext⟩ := exists_digit n
  · exact ⟨c, cs, htext, opens_digit hdigit⟩
  · exact ⟨'-', c :: cs, htext, by decide⟩

theorem opens_quoted (s : String) : Opens (quoted s).toList := by
  rw [toList_quoted]
  exact ⟨'"', _, rfl, by decide⟩

theorem opens_bracketed {opening : String} (h : Opens opening.toList) (closing : String) (texts : List String) :
    Opens (bracketed indent level opening closing texts).toList := by
  cases texts with
  | nil =>
    rw [bracketed_nil]
    exact h.append
  | cons s more =>
    rw [bracketed_cons]
    exact h.append

theorem value_null (fuel : Nat) : value standard (fuel + 1) ("null".toList ++ rest) = .ok (.null, rest) := rfl

theorem value_bool (fuel : Nat) (b : Bool) :
    value standard (fuel + 1) ((if b then "true" else "false").toList ++ rest) = .ok (.bool b, rest) := by
  cases b <;> rfl

theorem value_string (fuel : Nat) (s : String) :
    value standard (fuel + 1) ((quoted s).toList ++ rest) = .ok (.str s, rest) := by
  have hread := string_quoted s rest
  rw [toList_quoted, List.cons_append] at hread ⊢
  rw [value]
  dsimp only
  rw [hread]
  rfl

theorem value_scalar (d : Dialect) (fuel : Nat) {c : Char} (hc : c ≠ '"' ∧ c ≠ '{' ∧ c ≠ '[') :
    value d (fuel + 1) (c :: cs) = scalar d (c :: cs) := by
  rw [value.eq_def]
  dsimp only
  split
  · rename_i heq
    cases heq
  · rename_i heq
    exact absurd (List.cons.inj heq).1 hc.1
  · rename_i heq
    exact absurd (List.cons.inj heq).1 hc.2.1
  · rename_i heq
    exact absurd (List.cons.inj heq).1 hc.2.2
  · rfl

theorem value_spelling (fuel : Nat) (n : Spelling) {p : Plain} (hnumber : plainNumber n.text n.isFloat = .ok p)
    (hrest : Breaks inNumber rest) : value standard (fuel + 1) (n.text ++ rest) = .ok (p, rest) := by
  have hdigits : ∀ d < 10, Nat.digitChar d ≠ '"' ∧ Nat.digitChar d ≠ '{' ∧ Nat.digitChar d ≠ '[' := by decide
  have hread := scalar_spelling n hnumber hrest
  obtain ⟨c, cs, hdigit, htext | htext⟩ := exists_digit n <;> rw [htext, List.cons_append] at hread ⊢
  · obtain ⟨d, hd, rfl⟩ := exists_digitChar hdigit
    rw [value_scalar standard fuel (hdigits d hd), hread]
  · rw [value_scalar standard fuel (by decide), hread]

theorem value_array (fuel : Nat) (h : Opens cs) :
    value standard (fuel + 1) ('[' :: ((lineBreak indent level).toList ++ cs)) = elements standard fuel [] cs := by
  rw [value, skipBlanks_lineBreak indent level h.breaks]
  split
  · obtain ⟨c, cs, heq, hc⟩ := h
    rw [← (List.cons.inj heq).1] at hc
    exact absurd hc (by decide)
  · rfl

theorem value_object (fuel : Nat) (h : Opens cs) :
    value standard (fuel + 1) ('{' :: ((lineBreak indent level).toList ++ cs)) = members standard fuel [] cs := by
  rw [value, skipBlanks_lineBreak indent level h.breaks]
  split
  · obtain ⟨c, cs, heq, hc⟩ := h
    rw [← (List.cons.inj heq).1] at hc
    exact absurd hc (by decide)
  · rfl

variable {p : Plain} {left : List Char}

theorem elements_last {fuel : Nat} {done : List Plain} (hvalue : value standard fuel cs = .ok (p, left))
    (hleft : skipBlanks standard left = ']' :: rest) :
    elements standard (fuel + 1) done cs = .ok (.list (p :: done).reverse, rest) := by
  rw [elements, hvalue]
  dsimp only
  rw [hleft]
  rfl

theorem elements_next {fuel : Nat} {done : List Plain} (hvalue : value standard fuel cs = .ok (p, left))
    (hleft : skipBlanks standard left = ',' :: rest) :
    elements standard (fuel + 1) done cs = elements standard fuel (p :: done) (skipBlanks standard rest) := by
  rw [elements, hvalue]
  dsimp only
  rw [hleft]
  rfl

def keyed (indent : Indent) (k : String) : List Char := (quoted k).toList ++ (colon indent).toList

theorem skipBlanks_colon (indent : Indent) (h : Opens cs) : ∃ tail, skipBlanks standard ((colon indent).toList ++ cs) =
    ':' :: tail ∧ skipBlanks standard tail = cs := by
  have hskip := skipBlanks_of_breaks h.breaks
  cases indent with
  | none => exact ⟨cs, by rw [colon]; rfl, hskip⟩
  | some n => exact ⟨' ' :: cs, by rw [colon]; rfl, hskip⟩

def afterMember (fuel : Nat) (done : Dict Plain) (left : List Char) : Reading Plain :=
  match skipBlanks standard left with
  | '}' :: rest => .ok (.dict done, rest)
  | ',' :: rest => members standard fuel done (skipBlanks standard rest)
  | rest => complain .comma rest

theorem members_keyed {fuel : Nat} {done : Dict Plain} {k : String} (h : Opens cs)
    (hvalue : value standard fuel cs = .ok (p, left)) :
    members standard (fuel + 1) done (keyed indent k ++ cs) = afterMember fuel (done.insert k p) left := by
  obtain ⟨tail, hcolon, htail⟩ := skipBlanks_colon indent h
  have hstring := string_quoted k ((colon indent).toList ++ cs)
  rw [keyed, List.append_assoc]
  rw [toList_quoted, List.cons_append] at hstring ⊢
  rw [members, hstring]
  simp only [hcolon, htail, hvalue]
  rfl

theorem members_last {fuel : Nat} {done : Dict Plain} {k : String} (h : Opens cs)
    (hvalue : value standard fuel cs = .ok (p, left)) (hleft : skipBlanks standard left = '}' :: rest) :
    members standard (fuel + 1) done (keyed indent k ++ cs) = .ok (.dict (done.insert k p), rest) := by
  rw [members_keyed h hvalue, afterMember, hleft]
  rfl

theorem members_next {fuel : Nat} {done : Dict Plain} {k : String} (h : Opens cs)
    (hvalue : value standard fuel cs = .ok (p, left)) (hleft : skipBlanks standard left = ',' :: rest) :
    members standard (fuel + 1) done (keyed indent k ++ cs) =
      members standard fuel (done.insert k p) (skipBlanks standard rest) := by
  rw [members_keyed h hvalue, afterMember, hleft]
  rfl

end Json

namespace Tree

open Json

variable {indent : Indent} {rest : List Char}

/-- The text of a tree is read to its plain data, whatever follows. -/
def Reads (indent : Indent) (t : Tree) : Prop :=
  ∀ level fuel rest, (t.json indent level).toList.length ≤ fuel → Breaks inNumber rest →
    value standard fuel ((t.json indent level).toList ++ rest) = .ok (t.plain, rest)

theorem Sound.opens {t : Tree} (h : t.Sound Legible) (indent : Indent) (level : Nat) : Opens (t.json indent level).toList := by
  cases h with
  | null =>
    rw [json]
    exact ⟨'n', ['u', 'l', 'l'], rfl, by decide⟩
  | bool b =>
    rw [json]
    cases b with
    | false => exact ⟨'f', ['a', 'l', 's', 'e'], rfl, by decide⟩
    | true => exact ⟨'t', ['r', 'u', 'e'], rfl, by decide⟩
  | num h =>
    obtain ⟨n, htext, -⟩ := spelling_number h.finite h.readable
    rw [json, htext]
    exact opens_spelling n
  | str s => exact opens_quoted s
  | list h => exact opens_bracketed ⟨'[', _, rfl, by decide⟩ "]" _
  | dict hkeys h => exact opens_bracketed ⟨'{', _, rfl, by decide⟩ "\x7d" _

theorem opens_joined {t : Tree} (h : t.Sound Legible) (indent : Indent) (level : Nat) (more : List Tree) :
    Opens (joined indent level (jsonItems indent level (t :: more))) := by
  rw [jsonItems]
  cases more with
  | nil =>
    rw [jsonItems, joined_singleton]
    exact h.opens indent level
  | cons u more =>
    rw [jsonItems, joined_cons_cons]
    exact (h.opens indent level).append

/-- The elements of an array are read one after another. Each reading takes one from the fuel and more than one character
from the text, so the length of what is left stays below the fuel. -/
theorem elements_items {level outer : Nat} (t : Tree) (more : List Tree) {fuel : Nat} (done : List Plain)
    (hsound : ∀ u ∈ t :: more, u.Sound Legible) (hreads : ∀ u ∈ t :: more, u.Reads indent)
    (hfuel : (joined indent level (jsonItems indent level (t :: more))).length < fuel) :
    elements standard fuel done (joined indent level (jsonItems indent level (t :: more)) ++
        ((lineBreak indent outer).toList ++ ']' :: rest)) =
      .ok (.list (done.reverse ++ plainItems (t :: more)), rest) := by
  induction more generalizing t fuel done with
  | nil =>
    obtain ⟨fuel, rfl⟩ : ∃ k, fuel = k + 1 := ⟨fuel - 1, by omega⟩
    have hbreaks : Breaks inNumber ((lineBreak indent outer).toList ++ ']' :: rest) :=
      breaks_lineBreak indent outer (breaks_cons (by decide))
    rw [jsonItems, jsonItems, joined_singleton] at hfuel ⊢
    have hvalue := hreads t List.mem_cons_self level fuel _ (by omega) hbreaks
    rw [elements_last hvalue (skipBlanks_lineBreak indent outer (breaks_cons (by decide)))]
    rw [List.reverse_cons]
    rfl
  | cons u more ih =>
    obtain ⟨fuel, rfl⟩ : ∃ k, fuel = k + 1 := ⟨fuel - 1, by omega⟩
    have hopens := opens_joined (hsound u (List.mem_cons_of_mem t List.mem_cons_self)) indent level more
    rw [jsonItems, jsonItems, joined_cons_cons, ← jsonItems] at hfuel ⊢
    rw [List.length_append, List.length_cons, List.length_append] at hfuel
    have hless : (joined indent level (jsonItems indent level (u :: more))).length < fuel := by omega
    have hmore := ih u (t.plain :: done) (List.forall_mem_cons.1 hsound).2 (List.forall_mem_cons.1 hreads).2 hless
    rw [List.append_assoc, List.cons_append, List.append_assoc]
    have hvalue (left : List Char) :=
      hreads t List.mem_cons_self level fuel (',' :: left) (by omega) (breaks_cons (by decide))
    rw [elements_next (hvalue _) (skipBlanks_of_breaks (breaks_cons (by decide))),
      skipBlanks_lineBreak indent level hopens.append.breaks, hmore, List.reverse_cons, List.append_assoc]
    rfl

theorem opens_keyed (indent : Indent) (k : String) : Opens (keyed indent k) := (opens_quoted k).append

theorem toList_entry (k text : String) : (Json.quoted k ++ colon indent ++ text).toList = keyed indent k ++ text.toList := by
  rw [String.toList_append, String.toList_append, keyed]

theorem opens_joined_entries (k : String) (t : Tree) (indent : Indent) (level : Nat) (more : List (String × Tree)) :
    Opens (joined indent level (jsonEntries indent level ((k, t) :: more))) := by
  rw [jsonEntries]
  cases more with
  | nil =>
    rw [jsonEntries, joined_singleton, toList_entry]
    exact (opens_keyed indent k).append
  | cons e more =>
    rw [jsonEntries, joined_cons_cons, toList_entry]
    exact (opens_keyed indent k).append.append

theorem not_mem_keys {α : Type} {done : Dict Plain} {k : String} {a : α} {more : List (String × α)}
    (h : (done.keys ++ ((k, a) :: more).map (·.1)).Nodup) : k ∉ done.keys := fun hk =>
  (List.nodup_append.1 h).2.2 k hk k List.mem_cons_self rfl

/-- The members of an object are read one after another, and each goes behind those that were read before. -/
theorem members_entries {level outer : Nat} (k : String) (t : Tree) (more : List (String × Tree)) {fuel : Nat}
    (done : Dict Plain) (hkeys : (done.keys ++ ((k, t) :: more).map (·.1)).Nodup)
    (hsound : ∀ e ∈ (k, t) :: more, e.2.Sound Legible) (hreads : ∀ e ∈ (k, t) :: more, e.2.Reads indent)
    (hfuel : (joined indent level (jsonEntries indent level ((k, t) :: more))).length < fuel) :
    members standard fuel done (joined indent level (jsonEntries indent level ((k, t) :: more)) ++
        ((lineBreak indent outer).toList ++ '}' :: rest)) =
      .ok (.dict (done ++ plainEntries ((k, t) :: more)), rest) := by
  induction more generalizing k t fuel done with
  | nil =>
    have hnew := not_mem_keys hkeys
    obtain ⟨fuel, rfl⟩ : ∃ k, fuel = k + 1 := ⟨fuel - 1, by omega⟩
    have hbreaks : Breaks inNumber ((lineBreak indent outer).toList ++ '}' :: rest) :=
      breaks_lineBreak indent outer (breaks_cons (by decide))
    have hopens := (hsound (k, t) List.mem_cons_self).opens indent level
    rw [jsonEntries, jsonEntries, joined_singleton, toList_entry] at hfuel ⊢
    rw [List.length_append] at hfuel
    have hread : t.Reads indent := hreads (k, t) List.mem_cons_self
    have hvalue := hread level fuel _ (by omega) hbreaks
    rw [List.append_assoc, members_last hopens.append hvalue
      (skipBlanks_lineBreak indent outer (breaks_cons (by decide))), Dict.insert_of_not_mem hnew]
    rfl
  | cons e more ih =>
    obtain ⟨k', u⟩ := e
    have hnew := not_mem_keys hkeys
    have hkeys : (Dict.keys (done ++ [(k, t.plain)]) ++ ((k', u) :: more).map (·.1)).Nodup := by
      rw [Dict.keys, List.map_append, List.append_assoc]
      exact hkeys
    obtain ⟨fuel, rfl⟩ : ∃ k, fuel = k + 1 := ⟨fuel - 1, by omega⟩
    have hopens := (hsound (k, t) List.mem_cons_self).opens indent level
    have hopens' := opens_joined_entries k' u indent level more
    rw [jsonEntries, jsonEntries, joined_cons_cons, ← jsonEntries, toList_entry] at hfuel ⊢
    rw [List.length_append, List.length_append, List.length_cons, List.length_append] at hfuel
    have hless : (joined indent level (jsonEntries indent level ((k', u) :: more))).length < fuel := by omega
    have hmore := ih k' u (done ++ [(k, t.plain)]) hkeys (List.forall_mem_cons.1 hsound).2
      (List.forall_mem_cons.1 hreads).2 hless
    rw [List.append_assoc, List.cons_append, List.append_assoc, List.append_assoc]
    have hread : t.Reads indent := hreads (k, t) List.mem_cons_self
    have hvalue (left : List Char) := hread level fuel (',' :: left) (by omega) (breaks_cons (by decide))
    rw [members_next hopens.append (hvalue _) (skipBlanks_of_breaks (breaks_cons (by decide))),
      skipBlanks_lineBreak indent level hopens'.append.breaks, Dict.insert_of_not_mem hnew, hmore,
      List.append_assoc]
    rfl

theorem Sound.reads_of_succ {t : Tree} (h : t.Sound Legible)
    (hread : ∀ level fuel rest, (t.json indent level).toList.length ≤ fuel + 1 → Breaks inNumber rest →
      value standard (fuel + 1) ((t.json indent level).toList ++ rest) = .ok (t.plain, rest)) : t.Reads indent := by
  intro level fuel rest hfuel hrest
  obtain ⟨c, cs, htext, -⟩ := h.opens indent level
  rw [htext, List.length_cons] at hfuel
  obtain ⟨fuel, rfl⟩ : ∃ k, fuel = k + 1 := ⟨fuel - 1, by omega⟩
  refine hread level fuel rest ?_ hrest
  rw [htext]
  exact hfuel

theorem length_bracketed {opening closing front back items : List Char} {fuel : Nat}
    (h : (opening ++ (front ++ (items ++ (back ++ closing)))).length ≤ fuel + 1) (hopening : opening.length = 1)
    (hclosing : closing.length = 1) : items.length < fuel := by
  simp only [List.length_append, hopening, hclosing] at h
  omega

/-- The text of a sound tree is read to the plain data of the tree. -/
theorem Sound.reads {t : Tree} (h : t.Sound Legible) (indent : Indent) : t.Reads indent := by
  induction h with
  | null =>
    refine Sound.null.reads_of_succ fun level fuel rest _ _ => ?_
    rw [json]
    exact value_null fuel
  | bool b =>
    refine (Sound.bool b).reads_of_succ fun level fuel rest _ _ => ?_
    rw [json]
    exact value_bool fuel b
  | num h =>
    refine (Sound.num h).reads_of_succ fun level fuel rest _ hrest => ?_
    obtain ⟨n, htext, hnumber⟩ := spelling_number h.finite h.readable
    rw [json, htext]
    exact value_spelling fuel n hnumber hrest
  | str s =>
    refine (Sound.str s).reads_of_succ fun level fuel rest _ _ => ?_
    rw [json]
    exact value_string fuel s
  | @list items h ih =>
    refine (Sound.list h).reads_of_succ fun level fuel rest hfuel hrest => ?_
    cases items with
    | nil =>
      rw [json, jsonItems, bracketed_nil]
      rfl
    | cons t more =>
      have hopens := opens_joined (h t List.mem_cons_self) indent (level + 1) more
      rw [json, jsonItems, bracketed_cons, ← jsonItems] at hfuel ⊢
      have hlength := length_bracketed hfuel rfl rfl
      simp only [List.append_assoc]
      refine (value_array fuel hopens.append).trans ?_
      exact elements_items t more [] h ih hlength
  | @dict entries hkeys h ih =>
    refine (Sound.dict hkeys h).reads_of_succ fun level fuel rest hfuel hrest => ?_
    cases entries with
    | nil =>
      rw [json, jsonEntries, bracketed_nil]
      rfl
    | cons e more =>
      obtain ⟨k, t⟩ := e
      have hopens := opens_joined_entries k t indent (level + 1) more
      rw [json, jsonEntries, bracketed_cons, ← jsonEntries] at hfuel ⊢
      have hlength := length_bracketed hfuel rfl rfl
      simp only [List.append_assoc]
      refine (value_object fuel hopens.append).trans ?_
      exact members_entries k t more [] hkeys h ih hlength

theorem Sound.document {t : Tree} (h : t.Sound Legible) (indent : Indent) :
    Json.document standard (t.json indent 0).toList = .ok t.plain := by
  obtain ⟨c, cs, htext, hc⟩ := h.opens indent 0
  have hskip := skipBlanks_of_breaks (h.opens indent 0).breaks
  have hread := h.reads indent 0 (2 * (t.json indent 0).toList.length + 2) [] (by omega) breaks_nil
  have hmark : ¬ c.toNat = 0xFEFF := by
    unfold Json.opens at hc
    simp only [Bool.and_eq_true, bne_iff_ne] at hc
    exact hc.2
  rw [List.append_nil] at hread
  rw [htext] at hread hskip ⊢
  rw [Json.document, if_neg hmark, hskip, hread]
  rfl

end Tree

end DeskScript
