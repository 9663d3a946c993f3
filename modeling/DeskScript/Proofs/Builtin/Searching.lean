import DeskScript.Proofs.Builtin.Calls
import DeskScript.Proofs.Number.Integral
import DeskScript.Proofs.Text.Occurrences

set_option autoImplicit false

/-!
# Searching in texts and arrays

The functions that search, from the front, from the back or only for whether there is something to find, look for one set
of places: in a text where the text is read that is looked for, and in an array where an element is equal. Main statement:
`Builtin.searches_agree`.
-/

namespace DeskScript

open Number Text

theorem Number.ofNat_zero : Number.ofNat 0 = 0 := by decide +kernel

theorem Number.ofNat_pos {n : Nat} (hn : 0 < n) : 0 < Number.ofNat n := by
  unfold Number.ofNat
  cases hx : ofRatio? false n 1 with
  | some x => exact ofRatio?_pos hn hx
  | none => decide

theorem Number.ofNat_pos_iff {n : Nat} : 0 < Number.ofNat n ↔ 0 < n := by
  refine ⟨fun hpos => Nat.pos_of_ne_zero fun hzero => ?_, Number.ofNat_pos⟩
  rw [hzero, Number.ofNat_zero] at hpos
  exact absurd hpos (by decide)

theorem Number.ofNat_nonneg (n : Nat) : 0 ≤ Number.ofNat n := by
  rcases Nat.eq_zero_or_pos n with rfl | hn
  · rw [Number.ofNat_zero]
    decide
  · exact Number.le_of_lt (Number.ofNat_pos hn)

/-- A number stands for the place that `best` says of a set, or it is minus one and the set is empty. -/
inductive Reports (best : Set Nat → Nat → Prop) (places : Set Nat) : Float → Prop where
  | found {i : Nat} (hi : best places i) : Reports best places (Number.ofNat i)
  | missing (hnone : places = ∅) : Reports best places (-1)

variable {best : Set Nat → Nat → Prop} {places : Set Nat} {x : Float}

theorem Found.reports {o : Option Nat} (hfound : Found best places o) : Reports best places (Builtin.offsetText o) := by
  cases o with
  | some i => exact .found hfound
  | none => exact .missing hfound

theorem Reports.nonneg_iff (hx : Reports best places x) (hbest : ∀ i, best places i → i ∈ places) :
    0 ≤ x ↔ places.Nonempty := by
  cases hx with
  | found hi => exact iff_of_true (Number.ofNat_nonneg _) ⟨_, hbest _ hi⟩
  | missing hnone => exact iff_of_false (by decide) (Set.not_nonempty_iff_eq_empty.2 hnone)

section Lists

variable {α : Type}

def passing (p : α → Bool) (xs : List α) : Set Nat := {i | ∃ hi : i < xs.length, p xs[i] = true}

theorem findIdx?_found (p : α → Bool) (xs : List α) : Found IsLeast (passing p xs) (xs.findIdx? p) := by
  cases hfound : xs.findIdx? p with
  | some i =>
    obtain ⟨hi, hpasses, hbefore⟩ := List.findIdx?_eq_some_iff_getElem.1 hfound
    refine ⟨⟨hi, hpasses⟩, fun j ⟨hj, hpasses'⟩ => Nat.le_of_not_lt fun hlt => ?_⟩
    exact hbefore j hlt hpasses'
  | none =>
    rw [List.findIdx?_eq_none_iff] at hfound
    refine Set.eq_empty_of_forall_notMem fun j ⟨hj, hpasses⟩ => ?_
    rw [hfound _ (List.getElem_mem hj)] at hpasses
    cases hpasses

/-- The search in the list turned round finds the last place. -/
theorem findIdx?_reverse_found (p : α → Bool) (xs : List α) :
    Found IsGreatest (passing p xs) ((xs.reverse.findIdx? p).map (xs.length - 1 - ·)) := by
  have hfound := findIdx?_found p xs.reverse
  have hturned {i : Nat} (hi : i < xs.length) : i ∈ passing p xs.reverse ↔ xs.length - 1 - i ∈ passing p xs := by
    unfold passing
    simp only [Set.mem_ofPred_eq, List.length_reverse, List.getElem_reverse]
    exact ⟨fun ⟨_, hpasses⟩ => ⟨by omega, hpasses⟩, fun ⟨_, hpasses⟩ => ⟨hi, hpasses⟩⟩
  have hback {j : Nat} (hj : j ∈ passing p xs) : j < xs.length ∧ xs.length - 1 - j ∈ passing p xs.reverse := by
    obtain ⟨hlength, -⟩ := id hj
    refine ⟨hlength, ?_⟩
    rw [hturned (by omega), show xs.length - 1 - (xs.length - 1 - j) = j by omega]
    exact hj
  cases hlast : xs.reverse.findIdx? p with
  | some i =>
    rw [hlast] at hfound
    have hi : i < xs.length := by simpa using hfound.1.1
    refine ⟨(hturned hi).1 hfound.1, fun j hj => ?_⟩
    obtain ⟨hlength, hj⟩ := hback hj
    have hle := hfound.2 hj
    change j ≤ xs.length - 1 - i
    omega
  | none =>
    rw [hlast] at hfound
    refine Set.eq_empty_of_forall_notMem fun j hj => ?_
    have hj := (hback hj).2
    rw [show passing p xs.reverse = ∅ from hfound] at hj
    exact hj

end Lists

def readings (s t : String) : Set Nat :=
  {i | TextFn.substringOf s.toList i (i + t.length) = t.toList ∧ i + t.length ≤ s.length}

def Heap.equals (h : Heap) (id : Nat) (v : Value) : Set Nat :=
  {i | ∃ hi : i < (h.items id).size, h.equal (h.items id)[i] v = true}

theorem substringOf_eq (cs : List Char) (i n : Nat) : TextFn.substringOf cs i (i + n) = (cs.drop i).take n := by
  unfold TextFn.substringOf
  rw [Nat.min_eq_left (Nat.le_add_right i n), Nat.max_eq_right (Nat.le_add_right i n)]
  dsimp only
  rw [Nat.add_sub_cancel_left]

theorem offsets_eq (s t : String) : offsets t.toList s.toList = readings s t := by
  ext i
  unfold offsets readings
  rw [Set.mem_ofPred_eq, Set.mem_ofPred_eq, substringOf_eq, String.length_toList, String.length_toList, and_comm,
    List.prefix_iff_eq_take, String.length_toList]
  exact and_congr_left fun _ => eq_comm

namespace Builtin

variable {h : Heap} {host : Host} {id : Nat} {v : Value} {s t : String} {n : Float}

theorem intArgument_finite (name : String) (hn : n.isFinite = true) : intArgument name n = .ok (truncated n) := by
  rw [intArgument, if_pos hn]

theorem intOption_finite (name : String) (hn : n.isFinite = true) :
    SequenceFn.intOption name [.num n] = .ok (some (truncated n)) := by
  rw [SequenceFn.intOption, intArgument_finite name hn]
  rfl

theorem call_indexOf_from (hn : n.isFinite = true) : call "indexOf" h host [.str s, .str t, .num n] =
    .gives h host (.num (offsetText (findFrom t.toList s.toList (truncated n).toNat))) := by
  refine call_gives (find?_sequence (f := .indexOf) (by decide)) rfl ?_
  simp only [apply, SequenceFn.apply, intOption_finite _ hn]
  rfl

theorem call_lastIndexOf_from (hn : n.isFinite = true) : call "lastIndexOf" h host [.str s, .str t, .num n] =
    .gives h host (.num (offsetText (findLast t.toList s.toList ((truncated n).toNat + t.toList.length)))) := by
  refine call_gives (find?_sequence (f := .lastIndexOf) (by decide)) rfl ?_
  simp only [apply, SequenceFn.apply, intOption_finite _ hn]
  rfl

theorem call_substring {x y : Float} {i j : Nat} (hx : Denotes x i) (hy : Denotes y j) (hi : i ≤ s.length)
    (hj : j ≤ s.length) : call "substring" h host [.str s, .num x, .num y] =
      .gives h host (.str (String.ofList (TextFn.substringOf s.toList i j))) := by
  have hposition {x : Float} {i : Nat} (hx : Denotes x i) (hi : i ≤ s.length) :
      intArgument "substring" x = .ok i ∧ TextFn.within i s.toList.length = i := by
    rw [intArgument_finite _ hx.1, (denotes_iff.1 hx).2, TextFn.within, Int.toNat_natCast, String.length_toList,
      Nat.min_eq_left hi]
    exact ⟨rfl, rfl⟩
  obtain ⟨hstart, hlow⟩ := hposition hx hi
  obtain ⟨hstop, hhigh⟩ := hposition hy hj
  refine call_gives (find?_text (f := .substring) (by decide)) rfl ?_
  change reached h host (do
    let text := s.toList
    let a := TextFn.within (← intArgument "substring" x) text.length
    let b := TextFn.within (← intArgument "substring" y) text.length
    Outcome.chars h (TextFn.substringOf text a b)) = _
  rw [hstart, hstop]
  change reached h host (Outcome.chars h (TextFn.substringOf s.toList (TextFn.within i _) (TextFn.within j _))) = _
  rw [hlow, hhigh]
  rfl

/-- The searches come to the first of the places, to the last and to whether there is any. -/
def Searched (h : Heap) (host : Host) (sequence needle : Value) (places : Set Nat) : Prop :=
  ∃ (found : Bool) (x y : Float),
    call "contains" h host [sequence, needle] = .gives h host (.bool found) ∧
    call "indexOf" h host [sequence, needle] = .gives h host (.num x) ∧
    call "lastIndexOf" h host [sequence, needle] = .gives h host (.num y) ∧
    Reports IsLeast places x ∧ Reports IsGreatest places y ∧ (found = true ↔ 0 ≤ x) ∧ (0 ≤ x ↔ 0 ≤ y)

theorem searched_of_found {sequence needle : Value} {places : Set Nat} {found : Bool} {first last : Option Nat}
    (hcontains : call "contains" h host [sequence, needle] = .gives h host (.bool found))
    (hindexOf : call "indexOf" h host [sequence, needle] = .gives h host (.num (offsetText first)))
    (hlastIndexOf : call "lastIndexOf" h host [sequence, needle] = .gives h host (.num (offsetText last)))
    (hfound : found = true ↔ places.Nonempty) (hfirst : Found IsLeast places first)
    (hlast : Found IsGreatest places last) : Searched h host sequence needle places := by
  have hleast := hfirst.reports.nonneg_iff fun _ hi => hi.1
  have hgreatest := hlast.reports.nonneg_iff fun _ hi => hi.1
  exact ⟨found, _, _, hcontains, hindexOf, hlastIndexOf, hfirst.reports, hlast.reports, hfound.trans hleast.symm,
    hleast.trans hgreatest.symm⟩

theorem searched_text (h : Heap) (host : Host) (s t : String) :
    Searched h host (.str s) (.str t) (readings s t) := by
  rw [← offsets_eq]
  have hlast := findLast_length t.toList s.toList
  rw [String.length_toList] at hlast
  refine searched_of_found ?_ ?_ ?_ occurs_iff (findFrom_zero t.toList s.toList) hlast
  · exact call_gives (find?_sequence (f := .contains) (by decide)) rfl rfl
  · exact call_gives (find?_sequence (f := .indexOf) (by decide)) rfl rfl
  · exact call_gives (find?_sequence (f := .lastIndexOf) (by decide)) rfl rfl

theorem findIndex_found (h : Heap) (id : Nat) (v : Value) :
    Found IsLeast (h.equals id v) (SequenceFn.findIndex h (h.items id).toList v 0) := by
  have hshift (o : Option Nat) : o.map (· + 0) = o := congrFun Option.map_id o
  unfold SequenceFn.findIndex
  rw [hshift, List.drop_zero]
  exact findIdx?_found (h.equal · v) (h.items id).toList

theorem findLastIndex_found (h : Heap) (id : Nat) (v : Value) :
    Found IsGreatest (h.equals id v) (SequenceFn.findLastIndex h (h.items id).toList v (h.items id).size) := by
  unfold SequenceFn.findLastIndex
  rw [← Array.length_toList, List.take_length]
  exact findIdx?_reverse_found (h.equal · v) (h.items id).toList

theorem searched_array (h : Heap) (host : Host) (id : Nat) (v : Value) :
    Searched h host (.arr id) v (h.equals id v) := by
  have hfirst := findIndex_found h id v
  refine searched_of_found ?_ ?_ ?_ (hfirst.isSome_iff fun _ hi => hi.1) hfirst (findLastIndex_found h id v)
  · exact call_gives (find?_sequence (f := .contains) (by decide)) rfl rfl
  · exact call_gives (find?_sequence (f := .indexOf) (by decide)) rfl rfl
  · exact call_gives (find?_sequence (f := .lastIndexOf) (by decide)) rfl rfl

/-- **Searching.** From a finite start on, a text is found in another at the first place where it can be read there, and from
the start back at the last one; without a start that is so over the whole text. The same places say whether the text
contains the other. In an array the places are those of equal elements. -/
theorem searches_agree (h : Heap) (host : Host) :
    (∀ s t : String,
      (∀ (i : Nat) (x y : Float), Denotes x i → Denotes y (i + t.length : Nat) → i + t.length ≤ s.length →
        call "substring" h host [.str s, .num x, .num y] =
          .gives h host (.str (String.ofList (TextFn.substringOf s.toList i (i + t.length))))) ∧
      (∀ n : Float, n.isFinite = true → ∃ x y : Float,
        call "indexOf" h host [.str s, .str t, .num n] = .gives h host (.num x) ∧
        Reports IsLeast {i | i ∈ readings s t ∧ max 0 (truncated n) ≤ i} x ∧
        call "lastIndexOf" h host [.str s, .str t, .num n] = .gives h host (.num y) ∧
        Reports IsGreatest {i : Nat | i ∈ readings s t ∧ i ≤ max 0 (truncated n)} y) ∧
      Searched h host (.str s) (.str t) (readings s t)) ∧
    ∀ (id : Nat) (v : Value), Searched h host (.arr id) v (h.equals id v) := by
  refine ⟨fun s t => ⟨fun i x y hx hy hfits => ?_, fun n hn => ?_, searched_text h host s t⟩, searched_array h host⟩
  · exact call_substring hx hy (Nat.le_of_add_right_le hfits) hfits
  · have hfirst := (findFrom_found t.toList s.toList (truncated n).toNat).reports
    have hlast := (findLast_found t.toList s.toList (truncated n).toNat).reports
    have hbefore (i : Nat) : max 0 (truncated n) ≤ i ↔ (truncated n).toNat ≤ i := by omega
    have hbehind (i : Nat) : i ≤ max 0 (truncated n) ↔ i ≤ (truncated n).toNat := by omega
    rw [offsets_eq] at hfirst hlast
    simp only [← hbefore, ← hbehind] at hfirst hlast
    exact ⟨_, _, call_indexOf_from hn, hfirst, call_lastIndexOf_from hn, hlast⟩

/-- Occurrences that overlap, searched from a start that is no integer. -/
theorem searches_agree_overlapping : (1.5 : Float).isFinite = true ∧ ∃ x y : Float,
    call "indexOf" {} {} [.str "aaaa", .str "aa", .num 1.5] = .gives {} {} (.num x) ∧
    Reports IsLeast {i | i ∈ readings "aaaa" "aa" ∧ max 0 (truncated 1.5) ≤ i} x ∧
    call "lastIndexOf" {} {} [.str "aaaa", .str "aa", .num 1.5] = .gives {} {} (.num y) ∧
    Reports IsGreatest {i : Nat | i ∈ readings "aaaa" "aa" ∧ i ≤ max 0 (truncated 1.5)} y := by
  have hfinite : (1.5 : Float).isFinite = true := by decide +kernel
  obtain ⟨x, y, hsearches⟩ := ((searches_agree {} {}).1 "aaaa" "aa").2.1 1.5 hfinite
  exact ⟨hfinite, x, y, hsearches⟩

/-- The empty text is found at both ends. -/
example : findFrom [] "ab".toList 0 = some 0 ∧ findLast [] "ab".toList 2 = some 2 := by decide

end Builtin

end DeskScript
