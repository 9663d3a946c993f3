import DeskScript.Text.Search
import Mathlib.Data.Set.Basic
import Mathlib.Order.Bounds.Defs

set_option autoImplicit false

/-!
# Where a text occurs in another

A search from the front finds the least offset, and one that keeps the last hit the greatest, of one set of offsets. Main
statements: `Text.findFrom_found`, `Text.findLast_found`, `Text.occurs_iff`.
-/

namespace DeskScript

def Found (best : Set Nat → Nat → Prop) (places : Set Nat) : Option Nat → Prop
  | some i => best places i
  | none => places = ∅

theorem Found.isSome_iff {best : Set Nat → Nat → Prop} {places : Set Nat} {o : Option Nat} (hfound : Found best places o)
    (hbest : ∀ i, best places i → i ∈ places) : o.isSome = true ↔ places.Nonempty := by
  cases o with
  | some i => exact iff_of_true rfl ⟨i, hbest i hfound⟩
  | none => exact iff_of_false Bool.false_ne_true (Set.not_nonempty_iff_eq_empty.2 hfound)

theorem Found.add {places moved : Set Nat} {o : Option Nat} {k : Nat} (hfound : Found IsLeast places o)
    (hmoved : ∀ j, j ∈ moved ↔ ∃ i ∈ places, j = k + i) : Found IsLeast moved (o.map (k + ·)) := by
  cases o with
  | some i =>
    refine ⟨(hmoved _).2 ⟨i, hfound.1, rfl⟩, fun j hj => ?_⟩
    obtain ⟨l, hl, rfl⟩ := (hmoved j).1 hj
    exact Nat.add_le_add_left (hfound.2 hl) k
  | none =>
    refine Set.eq_empty_of_forall_notMem fun j hj => ?_
    obtain ⟨l, hl, -⟩ := (hmoved j).1 hj
    rw [show places = ∅ from hfound] at hl
    exact hl

namespace Text

variable {needle hay : List Char} {i start : Nat} {c : Char}

def offsets (needle hay : List Char) : Set Nat := {i | i + needle.length ≤ hay.length ∧ needle <+: hay.drop i}

theorem mem_offsets_iff : i ∈ offsets needle hay ↔ i ≤ hay.length ∧ needle <+: hay.drop i := by
  refine and_congr_left fun hprefix => ?_
  have hlength := hprefix.length_le
  rw [List.length_drop] at hlength
  omega

theorem zero_mem_offsets : 0 ∈ offsets needle hay ↔ needle <+: hay := by
  rw [mem_offsets_iff, List.drop_zero]
  exact and_iff_right (Nat.zero_le _)

theorem succ_mem_offsets : i + 1 ∈ offsets needle (c :: hay) ↔ i ∈ offsets needle hay := by
  rw [mem_offsets_iff, mem_offsets_iff, List.drop_succ_cons, List.length_cons, Nat.add_le_add_iff_right]

theorem add_mem_offsets (hstart : start ≤ hay.length) :
    start + i ∈ offsets needle hay ↔ i ∈ offsets needle (hay.drop start) := by
  rw [mem_offsets_iff, mem_offsets_iff, List.drop_drop, List.length_drop]
  exact and_congr_left fun _ => by omega

/-- The offsets within the first characters of a text. -/
theorem mem_offsets_take {stop : Nat} :
    i ∈ offsets needle (hay.take (stop + needle.length)) ↔ i ∈ offsets needle hay ∧ i ≤ stop := by
  unfold offsets
  simp only [Set.mem_ofPred_eq, List.length_take, List.drop_take, List.prefix_take_iff]
  constructor
  · rintro ⟨hlength, hprefix, hfits⟩
    exact ⟨⟨by omega, hprefix⟩, by omega⟩
  · rintro ⟨⟨hlength, hprefix⟩, hi⟩
    exact ⟨by omega, hprefix, by omega⟩

theorem offsets_nonempty : (offsets needle hay).Nonempty ↔ needle <:+: hay := by
  constructor
  · rintro ⟨i, -, hprefix⟩
    exact hprefix.isInfix.trans (hay.drop_suffix i).isInfix
  · rintro ⟨front, back, rfl⟩
    refine ⟨front.length, mem_offsets_iff.2 ⟨by simp, ?_⟩⟩
    rw [List.append_assoc, List.drop_left]
    exact List.prefix_append _ _

theorem offsets_nil (h : ¬needle <+: []) : offsets needle [] = ∅ :=
  Set.not_nonempty_iff_eq_empty.1 fun hsome => h (List.eq_nil_of_infix_nil (offsets_nonempty.1 hsome) ▸ List.prefix_rfl)

theorem isPrefixOf_iff : needle.isPrefixOf hay = true ↔ 0 ∈ offsets needle hay :=
  List.isPrefixOf_iff_prefix.trans zero_mem_offsets.symm

theorem findAt_add (needle : List Char) (i : Nat) (hay : List Char) :
    findAt needle i hay = (findAt needle 0 hay).map (i + ·) := by
  induction hay generalizing i with
  | nil =>
    rw [findAt, findAt]
    split <;> rfl
  | cons c hay ih =>
    rw [findAt, findAt]
    split
    · rfl
    · rw [ih (i + 1), ih (0 + 1), Option.map_map]
      exact congrArg (Option.map · _) (funext fun j => Nat.add_assoc i 1 j)

theorem findAt_found (needle hay : List Char) : Found IsLeast (offsets needle hay) (findAt needle 0 hay) := by
  induction hay with
  | nil =>
    rw [findAt]
    split
    · rename_i hfirst
      exact ⟨isPrefixOf_iff.1 hfirst, fun _ _ => Nat.zero_le _⟩
    · rename_i hfirst
      exact offsets_nil (mt List.isPrefixOf_iff_prefix.2 hfirst)
  | cons c hay ih =>
    rw [findAt]
    split
    · rename_i hfirst
      exact ⟨isPrefixOf_iff.1 hfirst, fun _ _ => Nat.zero_le _⟩
    · rename_i hfirst
      rw [findAt_add]
      refine ih.add fun j => ?_
      cases j with
      | zero => exact iff_of_false (mt isPrefixOf_iff.2 hfirst) fun ⟨i, _, hi⟩ => by omega
      | succ j =>
        rw [succ_mem_offsets]
        exact ⟨fun hj => ⟨j, hj, Nat.add_comm j 1⟩, fun ⟨i, hi, hj⟩ => by rwa [show j = i by omega]⟩

/-- The search from a start on finds the least offset that is not before it. -/
theorem findFrom_found (needle hay : List Char) (start : Nat) :
    Found IsLeast {i | i ∈ offsets needle hay ∧ start ≤ i} (findFrom needle hay start) := by
  unfold findFrom
  split
  · rename_i hstart
    rw [findAt_add]
    refine (findAt_found needle (hay.drop start)).add fun j => ⟨?_, ?_⟩
    · rintro ⟨hj, hle⟩
      obtain ⟨i, rfl⟩ := Nat.exists_eq_add_of_le hle
      exact ⟨i, (add_mem_offsets hstart).1 hj, rfl⟩
    · rintro ⟨i, hi, rfl⟩
      exact ⟨(add_mem_offsets hstart).2 hi, Nat.le_add_right start i⟩
  · rename_i hbeyond
    refine Set.eq_empty_of_forall_notMem fun j ⟨hj, hle⟩ => ?_
    exact hbeyond (Nat.le_trans hle (mem_offsets_iff.1 hj).1)

theorem findFrom_zero (needle hay : List Char) : Found IsLeast (offsets needle hay) (findFrom needle hay 0) := by
  have hfound := findFrom_found needle hay 0
  simpa only [Nat.zero_le, and_true, Set.ofPred_mem_eq] using hfound

theorem occurs_iff : occurs needle hay = true ↔ (offsets needle hay).Nonempty :=
  (findFrom_zero needle hay).isSome_iff fun _ hi => hi.1

/-- A later hit takes the place of the best one so far. -/
theorem findLastAt_add (needle : List Char) (best : Option Nat) (i : Nat) (hay : List Char) :
    findLastAt needle best i hay = ((findLastAt needle none 0 hay).map (i + ·)).or best := by
  induction hay generalizing best i with
  | nil =>
    simp only [findLastAt]
    split <;> rfl
  | cons c hay ih =>
    simp only [findLastAt]
    rw [ih _ (i + 1), ih _ (0 + 1)]
    cases findLastAt needle none 0 hay with
    | some j => simp [Nat.add_assoc]
    | none => split <;> rfl

theorem findLastAt_found (needle hay : List Char) :
    Found IsGreatest (offsets needle hay) (findLastAt needle none 0 hay) := by
  -- An occurrence at the head counts only where there is none behind it.
  induction hay with
  | nil =>
    simp only [findLastAt]
    split
    · rename_i hfirst
      exact ⟨isPrefixOf_iff.1 hfirst, fun _ hi => (mem_offsets_iff.1 hi).1⟩
    · rename_i hfirst
      exact offsets_nil (mt List.isPrefixOf_iff_prefix.2 hfirst)
  | cons c hay ih =>
    simp only [findLastAt]
    rw [findLastAt_add]
    cases hlast : findLastAt needle none 0 hay with
    | some i =>
      rw [hlast] at ih
      change IsGreatest (offsets needle (c :: hay)) (0 + 1 + i)
      rw [Nat.add_comm]
      refine ⟨succ_mem_offsets.2 ih.1, fun j hj => ?_⟩
      cases j with
      | zero => exact Nat.zero_le _
      | succ j => exact Nat.succ_le_succ (ih.2 (succ_mem_offsets.1 hj))
    | none =>
      rw [hlast] at ih
      have hrest (j : Nat) : j + 1 ∉ offsets needle (c :: hay) := fun hj => by
        rw [succ_mem_offsets, show offsets needle hay = ∅ from ih] at hj
        exact hj
      split
      · rename_i hfirst
        refine ⟨isPrefixOf_iff.1 hfirst, fun j hj => ?_⟩
        cases j with
        | zero => exact Nat.le_refl 0
        | succ j => exact absurd hj (hrest j)
      · rename_i hfirst
        refine Set.eq_empty_of_forall_notMem fun j hj => ?_
        cases j with
        | zero => exact hfirst (isPrefixOf_iff.2 hj)
        | succ j => exact hrest j hj

/-- The search within the characters up to the end of an occurrence at `last` finds the greatest offset that is not behind
`last`. -/
theorem findLast_found (needle hay : List Char) (last : Nat) :
    Found IsGreatest {i | i ∈ offsets needle hay ∧ i ≤ last} (findLast needle hay (last + needle.length)) := by
  have hplaces : {i | i ∈ offsets needle hay ∧ i ≤ last} = offsets needle (hay.take (last + needle.length)) :=
    Set.ext fun i => mem_offsets_take.symm
  rw [hplaces]
  exact findLastAt_found _ _

theorem findLast_length (needle hay : List Char) : Found IsGreatest (offsets needle hay) (findLast needle hay hay.length) := by
  rw [findLast, List.take_length]
  exact findLastAt_found needle hay

end Text

end DeskScript
