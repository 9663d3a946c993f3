import DeskScript.Text.Class
import Mathlib.Algebra.GroupWithZero.Nat

set_option autoImplicit false

/-!
# Membership in run lengths

The boundaries of run lengths are in order, so the search by halving finds how many of them are at or below a code
point, and runs behind a code point do not matter for it. Main statement: `Runs.contains_ofText`.
-/

namespace DeskScript.Text

theorem boundaries_append (start : Nat) (xs ys : List Nat) :
    boundaries start (xs ++ ys) = boundaries start xs ++ boundaries (start + xs.sum) ys := by
  induction xs generalizing start with
  | nil => rfl
  | cons n xs ih => rw [List.cons_append, boundaries, ih, List.sum_cons, Nat.add_assoc, boundaries, List.cons_append]

theorem le_boundaries (start : Nat) (runs : List Nat) : ∀ b ∈ boundaries start runs, start ≤ b := by
  induction runs generalizing start with
  | nil => simp [boundaries]
  | cons n runs ih =>
    intro b hb
    rcases List.mem_cons.1 hb with rfl | hb
    · exact Nat.le_add_right start n
    · have := ih _ b hb
      omega

theorem boundaries_ordered (start : Nat) (runs : List Nat) : (boundaries start runs).Pairwise (· ≤ ·) := by
  induction runs generalizing start with
  | nil => exact .nil
  | cons n runs ih => exact List.pairwise_cons.2 ⟨le_boundaries _ runs, ih _⟩

/-- Halving finds the number of entries that are at most `n`. All entries below `lo` are, and none from `hi` on. -/
theorem countAtMost_eq {bounds : List Nat} (hordered : bounds.Pairwise (· ≤ ·)) {n lo hi : Nat} (hlo : lo ≤ hi)
    (hhi : hi ≤ bounds.length) (hbelow : ∀ b ∈ bounds.take lo, b ≤ n) (habove : ∀ b ∈ bounds.drop hi, n < b) :
    countAtMost bounds.toArray n lo hi = bounds.countP (· ≤ n) := by
  rw [List.pairwise_iff_getElem] at hordered
  fun_induction countAtMost bounds.toArray n lo hi with
  | case1 lo hi hlt mid hmid ih =>
    have hsize : mid < bounds.length := by omega
    have hentry : bounds[mid] ≤ n := by simpa [Array.getD, hsize] using hmid
    refine ih (by omega) hhi (fun b hb => ?_) habove
    obtain ⟨i, hi, rfl⟩ := List.mem_take_iff_getElem.1 hb
    by_cases him : i = mid
    · simpa [him] using hentry
    · exact Nat.le_trans (hordered i mid (by omega) hsize (by omega)) hentry
  | case2 lo hi hlt mid hmid ih =>
    have hsize : mid < bounds.length := by omega
    have hentry : n < bounds[mid] := by simpa [Array.getD, hsize] using hmid
    refine ih (by omega) (by omega) hbelow fun b hb => ?_
    obtain ⟨i, hi, rfl⟩ := List.mem_drop_iff_getElem.1 hb
    by_cases hi0 : i = 0
    · simpa [hi0] using hentry
    · exact Nat.lt_of_lt_of_le hentry (hordered mid (mid + i) hsize (by omega) (by omega))
  | case3 lo hi hge =>
    obtain rfl : lo = hi := by omega
    have htake : (bounds.take lo).countP (· ≤ n) = (bounds.take lo).length :=
      List.countP_eq_length.2 (by simpa using hbelow)
    have hdrop : (bounds.drop lo).countP (· ≤ n) = 0 := List.countP_eq_zero.2 (by simpa using habove)
    have hsplit := congrArg (List.countP (· ≤ n)) (List.take_append_drop lo bounds)
    rw [List.countP_append, htake, hdrop, List.length_take] at hsplit
    omega

/-- A code point is a member exactly when an odd number of boundaries is at or below it. -/
theorem Runs.contains_ofText (text : String) (n : Nat) :
    (Runs.ofText text).contains n = ((boundaries 0 (numerals text)).countP (· ≤ n) % 2 == 1) := by
  unfold Runs.ofText Runs.contains
  rw [countAtMost_eq (boundaries_ordered _ _) (Nat.zero_le _) (by simp) (by simp) (by simp)]

def numeralStep (state : List Nat × Nat) (c : Char) : List Nat × Nat :=
  if c = ' ' then (state.2 :: state.1, 0) else (state.1, 10 * state.2 + (c.toNat - 48))

theorem numerals_eq (text : String) : numerals text =
    ((text.toList.foldl numeralStep ([], 0)).2 :: (text.toList.foldl numeralStep ([], 0)).1).reverse := rfl

theorem foldl_numeralStep (done : List Nat) (current : Nat) (cs : List Char) :
    cs.foldl numeralStep (done, current) =
      ((cs.foldl numeralStep ([], current)).1 ++ done, (cs.foldl numeralStep ([], current)).2) := by
  induction cs generalizing done current with
  | nil => rfl
  | cons c cs ih =>
    rw [List.foldl_cons, List.foldl_cons]
    by_cases hc : c = ' '
    · have hstep (done : List Nat) : numeralStep (done, current) c = (current :: done, 0) := if_pos hc
      rw [hstep, hstep, ih (current :: done), ih [current], List.append_assoc, List.singleton_append]
    · have hstep (done : List Nat) : numeralStep (done, current) c = (done, 10 * current + (c.toNat - 48)) := if_neg hc
      rw [hstep, hstep, ih done]

theorem numerals_append (a b : String) : numerals (a ++ " " ++ b) = numerals a ++ numerals b := by
  have hblank (state : List Nat × Nat) : " ".toList.foldl numeralStep state = (state.2 :: state.1, 0) := rfl
  rw [numerals_eq, numerals_eq, numerals_eq, String.toList_append, String.toList_append, List.foldl_append,
    List.foldl_append, hblank, foldl_numeralStep]
  simp

theorem Runs.contains_append {a : String} (b : String) {n : Nat} (hn : n < (numerals a).sum) :
    (Runs.ofText (a ++ " " ++ b)).contains n = (Runs.ofText a).contains n := by
  have hlater : (boundaries (0 + (numerals a).sum) (numerals b)).countP (· ≤ n) = 0 := by
    refine List.countP_eq_zero.2 fun bound hbound => ?_
    have := le_boundaries _ _ bound hbound
    simp
    omega
  rw [contains_ofText, contains_ofText, numerals_append, boundaries_append, List.countP_append, hlater, Nat.add_zero]

/-- The first letters of the table: those of ASCII and of the Latin-1 block. -/
theorem letterRuns_first : ∃ more, letterRuns = Runs.ofText ("65 26 6 26 47 1 10 1 4 1 5 23 1 31" ++ " " ++ more) := by
  have hline :
      "65 26 6 26 47 1 10 1 4 1 5 23 1 31 1 458 4 12 14 5 7 1 1 1 129 5 1 2 2 4 1 1 6 1 1 3 1 1 1 20 1 83 1 139 8 " =
      "65 26 6 26 47 1 10 1 4 1 5 23 1 31" ++ " " ++
        "1 458 4 12 14 5 7 1 1 1 129 5 1 2 2 4 1 1 6 1 1 3 1 1 1 20 1 83 1 139 8 " := by cbv
  rw [letterRuns, hline]
  simp only [String.append_assoc]
  exact ⟨_, rfl⟩

theorem isNameStart_accented : isNameStart 'é' = true := by
  obtain ⟨more, hmore⟩ := letterRuns_first
  have hletter : letterRuns.contains 233 = true := by
    rw [hmore, Runs.contains_append more (by cbv), Runs.contains_ofText]
    cbv
  have hbeyond : ¬ 'é'.toNat < 128 := by decide
  rw [isNameStart, isLetter, if_neg hbeyond]
  exact Bool.or_eq_true_iff.2 (.inl hletter)

end DeskScript.Text
