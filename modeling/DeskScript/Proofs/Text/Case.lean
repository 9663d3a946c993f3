import DeskScript.Text.Case
import DeskScript.Text.Class
import Mathlib.Data.List.Defs

set_option autoImplicit false

/-!
# Upper case is final

No capital and no character without case is among those that change, so what comes out as one capital stays as it is. Nor
does a slash, a backslash or a blank come from any other character. The tables are compared as sets of code points, each
set written as the binary digits of one number. Main statements: `Text.upperChar_upperChar`, `Text.mem_upperChar`.
-/

namespace DeskScript.Text

def digits (ns : List Nat) : Nat := ns.foldr (fun n set => set ||| 1 <<< n) 0

theorem testBit_digits (ns : List Nat) (n : Nat) : (digits ns).testBit n = decide (n ∈ ns) := by
  induction ns with
  | nil => simp [digits]
  | cons m ns ih =>
    have hcons : digits (m :: ns) = digits ns ||| 1 <<< m := rfl
    rw [hcons, Nat.testBit_or, ih, Nat.one_shiftLeft, Nat.testBit_two_pow, ← Bool.decide_or]
    simp only [List.mem_cons, or_comm, eq_comm]

theorem not_mem_of_digits {ms ns : List Nat} (h : digits ms &&& digits ns = 0) {n : Nat} (hm : n ∈ ms) : n ∉ ns := by
  intro hn
  have hdigit := congrArg (Nat.testBit · n) h
  simp only [Nat.testBit_and, testBit_digits, hm, hn, decide_true, Nat.zero_testBit] at hdigit
  contradiction

namespace CaseSpan

def sources (s : CaseSpan) : List Nat := (List.range s.count).map (s.first + s.stride * ·)

def targets (s : CaseSpan) : List Nat := (List.range s.count).map (s.target + s.stride * ·)

theorem image?_eq_some {s : CaseSpan} {n m : Nat} (h : s.image? n = some m) : n ∈ s.sources ∧ m ∈ s.targets := by
  unfold image? at h
  split at h
  · rename_i hin
    simp only [Bool.and_eq_true, decide_eq_true_eq, beq_iff_eq] at hin
    obtain ⟨⟨hle, hstep⟩, hcount⟩ := hin
    have hplace : s.stride * ((n - s.first) / s.stride) = n - s.first :=
      Nat.mul_div_cancel' (Nat.dvd_of_mod_eq_zero hstep)
    have hplaces := List.mem_range.2 hcount
    refine ⟨List.mem_map.2 ⟨_, hplaces, ?_⟩, List.mem_map.2 ⟨_, hplaces, ?_⟩⟩
    · rw [hplace]
      omega
    · rw [hplace]
      exact Option.some_inj.1 h
  · contradiction

end CaseSpan

def cuts : List Nat :=
  List.range' 9 5 ++ List.range' 28 5 ++ List.range' 0x2000 11 ++
    [0x85, 0xA0, 0x1680, 0x2028, 0x2029, 0x202F, 0x205F, 0x3000, 47, 92]

def lowers : List Nat := upperSpans.flatMap CaseSpan.sources ++ upperSequences.map CaseSpan.first

theorem uppers_digits : digits (upperSpans.flatMap CaseSpan.targets) &&& digits (lowers ++ cuts) = 0 := by
  decide +kernel

theorem sequences_digits :
    digits (upperSequences.flatMap fun s => [s.count, s.stride, s.target]) &&& digits cuts = 0 := by
  decide +kernel

theorem sequences_long : ∀ s ∈ upperSequences, s.count ≠ 0 ∧ s.stride ≠ 0 := by decide +kernel

theorem mem_cuts_iff (c : Char) : c.toNat ∈ cuts ↔ isBlank c = true ∨ c = '/' ∨ c = '\\' := by
  have hslash : c = '/' ↔ c.toNat = 47 := Char.toNat_inj.symm
  have hback : c = '\\' ↔ c.toNat = 92 := Char.toNat_inj.symm
  rw [hslash, hback]
  simp only [cuts, isBlank, List.mem_append, List.mem_range'_1, List.mem_cons, List.not_mem_nil, or_false,
    Bool.or_eq_true, Bool.and_eq_true, decide_eq_true_eq, beq_iff_eq]
  omega

theorem small_letters : ∀ i < 26, (Char.ofNat (97 + i)).toNat ∈ lowers ∧
    upperChar (Char.ofNat (97 + i)) = [Char.ofNat (65 + i)] := by
  decide +kernel

theorem capital_letters : ∀ i < 26, (Char.ofNat (65 + i)).toNat ∉ cuts ∧
    upperChar (Char.ofNat (65 + i)) = [Char.ofNat (65 + i)] := by
  decide +kernel

theorem upperChar_ascii {c : Char} (h : c.toNat < 128) : upperChar c = [c] ∨ ∃ i < 26, c = Char.ofNat (97 + i) := by
  unfold upperChar
  rw [if_pos h]
  split
  · rename_i hletter
    simp only [Bool.and_eq_true, decide_eq_true_eq] at hletter
    have hfirst : 97 ≤ c.toNat := hletter.1
    have hlast : c.toNat ≤ 122 := hletter.2
    have hplace : 97 + (c.toNat - 97) = c.toNat := by omega
    exact .inr ⟨c.toNat - 97, by omega, by rw [hplace, Char.ofNat_toNat]⟩
  · exact .inl rfl

/-- A character that is not among those that change is its own upper case. -/
theorem upperChar_of_not_mem {c : Char} (h : c.toNat ∉ lowers) : upperChar c = [c] := by
  by_cases hascii : c.toNat < 128
  · rcases upperChar_ascii hascii with hsame | ⟨i, hi, rfl⟩
    · exact hsame
    · exact absurd (small_letters i hi).1 h
  · have hsequence : upperSequences.find? (fun s => s.first == c.toNat) = none :=
      List.find?_eq_none.2 fun s hs hfirst =>
        h (List.mem_append_right _ (List.mem_map.2 ⟨s, hs, beq_iff_eq.1 hfirst⟩))
    have hspan : upperSpans.findSome? (·.image? c.toNat) = none := by
      refine List.findSome?_eq_none_iff.2 fun s hs => Option.eq_none_iff_forall_ne_some.2 fun m hm => ?_
      exact h (List.mem_append_left _ (List.mem_flatMap.2 ⟨s, hs, (CaseSpan.image?_eq_some hm).1⟩))
    unfold upperChar
    rw [if_neg hascii, hsequence, hspan]
    rfl

/-- What becomes of a character beyond ASCII: itself, several characters, or one character of a target. -/
theorem upperChar_cases {c : Char} (h : ¬ c.toNat < 128) :
    upperChar c = [c] ∨
    (∃ s ∈ upperSequences, upperChar c = ([s.count, s.stride, s.target].filter (· ≠ 0)).map Char.ofNat) ∨
    ∃ m ∈ upperSpans.flatMap CaseSpan.targets, upperChar c = [Char.ofNat m] := by
  unfold upperChar
  rw [if_neg h]
  split
  · rename_i s hs
    exact .inr (.inl ⟨s, List.mem_of_find?_eq_some hs, rfl⟩)
  · cases hm : upperSpans.findSome? (·.image? c.toNat) with
    | none => exact .inl rfl
    | some m =>
      obtain ⟨s, hs, himage⟩ := List.exists_of_findSome?_eq_some hm
      exact .inr (.inr ⟨m, List.mem_flatMap.2 ⟨s, hs, (CaseSpan.image?_eq_some himage).2⟩, rfl⟩)

/-- The code point of the character of a number is that number, or zero. -/
theorem toNat_ofNat (n : Nat) : (Char.ofNat n).toNat = n ∨ (Char.ofNat n).toNat = 0 := by
  unfold Char.ofNat
  by_cases h : n.isValidChar
  · rw [dif_pos h]
    exact .inl rfl
  · rw [dif_neg h]
    exact .inr rfl

theorem not_mem_of_target {m : Nat} (hm : m ∈ upperSpans.flatMap CaseSpan.targets) :
    (Char.ofNat m).toNat ∉ lowers ∧ (Char.ofNat m).toNat ∉ cuts := by
  have hzero : 0 ∉ lowers ++ cuts := by decide +kernel
  have htarget : m ∉ lowers ++ cuts := not_mem_of_digits uppers_digits hm
  have hat : (Char.ofNat m).toNat ∉ lowers ++ cuts := by
    rcases toNat_ofNat m with hsame | hnull
    · rwa [hsame]
    · rwa [hnull]
  exact ⟨fun h => hat (List.mem_append_left _ h), fun h => hat (List.mem_append_right _ h)⟩

/-- One character that is upper case of another stays as it is. -/
theorem upperChar_upperChar {c d : Char} (h : upperChar c = [d]) : upperChar d = [d] := by
  by_cases hascii : c.toNat < 128
  · rcases upperChar_ascii hascii with hsame | ⟨i, hi, rfl⟩
    · cases h.symm.trans hsame
      exact h
    · cases h.symm.trans (small_letters i hi).2
      exact (capital_letters i hi).2
  · rcases upperChar_cases hascii with hsame | ⟨s, hs, hseveral⟩ | ⟨m, hm, hone⟩
    · cases h.symm.trans hsame
      exact h
    · obtain ⟨hfirst, hsecond⟩ := sequences_long s hs
      rw [hseveral] at h
      simp [List.filter_cons, hfirst, hsecond] at h
    · cases h.symm.trans hone
      exact upperChar_of_not_mem (not_mem_of_target hm).1

/-- Blanks, slashes and backslashes are upper case of no other character. -/
theorem mem_upperChar {c d : Char} (h : d ∈ upperChar c) (hd : d.toNat ∈ cuts) : d = c := by
  by_cases hascii : c.toNat < 128
  · rcases upperChar_ascii hascii with hsame | ⟨i, hi, rfl⟩
    · rw [hsame] at h
      exact List.mem_singleton.1 h
    · rw [(small_letters i hi).2, List.mem_singleton] at h
      subst h
      exact absurd hd (capital_letters i hi).1
  · rcases upperChar_cases hascii with hsame | ⟨s, hs, hseveral⟩ | ⟨m, hm, hone⟩
    · rw [hsame] at h
      exact List.mem_singleton.1 h
    · rw [hseveral] at h
      obtain ⟨n, hn, rfl⟩ := List.mem_map.1 h
      have htarget : n ∈ upperSequences.flatMap fun s => [s.count, s.stride, s.target] :=
        List.mem_flatMap.2 ⟨s, hs, (List.mem_filter.1 hn).1⟩
      have hzero : 0 ∉ cuts := by decide
      rcases toNat_ofNat n with hat | hat
      · rw [hat] at hd
        exact absurd hd (not_mem_of_digits sequences_digits htarget)
      · rw [hat] at hd
        exact absurd hd hzero
    · rw [hone, List.mem_singleton] at h
      subst h
      exact absurd hd (not_mem_of_target hm).2

end DeskScript.Text
