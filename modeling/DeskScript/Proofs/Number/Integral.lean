import DeskScript.Proofs.Number.Units

set_option autoImplicit false

/-!
# Doubles that are integers

A double is an integer if it stands for one. An integer that is a double is converted to that double, and the double
nearest to any other integer is an integer too. An integer has no double if it is at least the middle between the
greatest double and the next power of two. Main statements: `denotes_iff`, `Denotes.ofInt?_eq`, `denotes_of_ofInt?`,
`ofInt?_eq_none`.
-/

namespace DeskScript.Number

variable {x y : Float} {i j : Int}

def Denotes (x : Float) (i : Int) : Prop := Stands x (i * unitsPerOne)

theorem Denotes.unique (h : Denotes x i) (h' : Denotes x j) : i = j :=
  Int.eq_of_mul_eq_mul_right (Int.ne_of_gt (Int.natCast_pos.2 unitsPerOne_pos)) (h.2.symm.trans h'.2)

theorem isIntegral_iff : isIntegral x = true ↔
    x.isFinite = true ∧ (Binary.ofFloat x).ratio.1 % (Binary.ofFloat x).ratio.2 = 0 := by
  unfold isIntegral
  rw [Bool.and_eq_true]
  exact and_congr_right fun _ => beq_iff_eq

/-- A magnitude is a number of ones exactly if the ratio divides to it. -/
theorem magnitude_eq_iff (x : Float) (n : Nat) : magnitude (Binary.ofFloat x) = n * unitsPerOne ↔
    (Binary.ofFloat x).ratio.1 % (Binary.ofFloat x).ratio.2 = 0 ∧
      (Binary.ofFloat x).ratio.1 / (Binary.ofFloat x).ratio.2 = n := by
  have hratio := magnitude_ratio (least_exponent x)
  have hden := (Binary.ofFloat x).ratio_pos
  have hone := unitsPerOne_pos
  generalize magnitude (Binary.ofFloat x) = m at hratio ⊢
  generalize unitsPerOne = one at hratio hone ⊢
  generalize (Binary.ofFloat x).ratio.1 = num at hratio ⊢
  generalize (Binary.ofFloat x).ratio.2 = den at hratio hden ⊢
  constructor
  · rintro rfl
    have hnum : num = n * den := by
      refine Nat.eq_of_mul_eq_mul_right hone ?_
      rw [← hratio]
      ac_rfl
    rw [hnum]
    exact ⟨Nat.mul_mod_left n den, Nat.mul_div_cancel n hden⟩
  · rintro ⟨hwhole, rfl⟩
    refine Nat.eq_of_mul_eq_mul_right hden ?_
    calc m * den = num / den * den * one := by rw [hratio, Nat.div_mul_cancel (Nat.dvd_of_mod_eq_zero hwhole)]
      _ = num / den * one * den := by ac_rfl

theorem denotes_iff : Denotes x i ↔ isIntegral x = true ∧ truncated x = i := by
  unfold Denotes Stands units truncated
  rw [isIntegral_iff, and_assoc]
  refine and_congr_right fun _ => ?_
  obtain ⟨n, hn⟩ := Int.eq_nat_or_neg i
  have hparts := magnitude_eq_iff x n
  have hzero : n * unitsPerOne = 0 ↔ n = 0 := by
    rw [Nat.mul_eq_zero, or_iff_left (Nat.ne_of_gt unitsPerOne_pos)]
  have hcast : i * unitsPerOne = if i < 0 then -((n * unitsPerOne : Nat) : Int) else (n * unitsPerOne : Nat) := by
    rcases hn with rfl | rfl
    · rw [if_neg (by omega), Int.natCast_mul]
    · split
      · rw [Int.neg_mul, Int.natCast_mul]
      · rw [show n = 0 by omega, Nat.zero_mul, Int.natCast_zero, Int.neg_zero, Int.zero_mul]
  rw [hcast]
  dsimp only
  generalize n * unitsPerOne = total at *
  generalize magnitude (Binary.ofFloat x) = m at *
  generalize (Binary.ofFloat x).ratio.1 / (Binary.ofFloat x).ratio.2 = q at *
  generalize (Binary.ofFloat x).ratio.1 % (Binary.ofFloat x).ratio.2 = r at *
  split <;> split <;> omega

theorem denotes_truncated (h : isIntegral x = true) : Denotes x (truncated x) := denotes_iff.2 ⟨h, rfl⟩

theorem not_denotes (h : isIntegral x = false) (i : Int) : ¬Denotes x i := fun hx =>
  Bool.eq_false_iff.1 h (denotes_iff.1 hx).1

/-- An integer that is a double is converted to it; zero is converted to the zero without a sign. -/
theorem Denotes.ofInt?_eq (h : Denotes x i) : ofInt? i = some (if x == 0 then 0 else x) := by
  obtain ⟨hintegral, rfl⟩ := denotes_iff.1 h
  exact ofInt?_truncated_of_integral hintegral

theorem denotes_zero : Denotes 0 0 := denotes_iff.2 (by decide +kernel)

theorem denotes_unsigned (h : Denotes x i) : Denotes (if x == 0 then 0 else x) i := by
  split
  · rename_i hzero
    have hunits := (beq_iff_units h.1 zero_isFinite).1 hzero
    rw [units_zero] at hunits
    refine ⟨zero_isFinite, ?_⟩
    rw [units_zero, ← hunits]
    exact h.2
  · exact h

/-- A quotient is rounded to at least an even number from the middle before it on. -/
theorem le_roundedQuotient_iff {num den c : Nat} (hden : 0 < den) (hc : 0 < c) (heven : c % 2 = 0) :
    c ≤ roundedQuotient num den ↔ (2 * c - 1) * den ≤ 2 * num := by
  have hdivision : den * (num / den) + num % den = num := Nat.div_add_mod num den
  have hrest := Nat.mod_lt num hden
  obtain ⟨below, rfl⟩ : ∃ below, c = below + 1 := ⟨c - 1, by omega⟩
  rw [show 2 * (below + 1) - 1 = 2 * below + 1 by omega, Nat.add_mul, Nat.one_mul, Nat.mul_assoc]
  unfold roundedQuotient
  dsimp only
  generalize num / den = q at hdivision ⊢
  generalize num % den = r at hdivision hrest ⊢
  rcases Nat.lt_trichotomy q below with hless | rfl | hgreater
  · have hproduct : den * q + den ≤ below * den := by
      rw [← Nat.mul_succ, Nat.mul_comm]
      exact Nat.mul_le_mul_right den hless
    refine iff_of_false ?_ (by omega)
    split
    · omega
    · split
      · omega
      · split <;> omega
  · -- The number before an even one is odd, so that a tie goes to the even one.
    rw [Nat.mul_comm] at hdivision
    rw [if_neg (show ¬q % 2 = 0 by omega), ite_self]
    split <;> omega
  · have hproduct : below * den + den ≤ den * q := by
      rw [← Nat.succ_mul, Nat.mul_comm]
      exact Nat.mul_le_mul_left den hgreater
    refine iff_of_true ?_ (by omega)
    split
    · omega
    · split
      · omega
      · split <;> omega

def beyond : Nat := Nat.pow 2 1024 - Nat.pow 2 970

/-- An integer has no double from the middle between the greatest one and the next power of two on. -/
theorem ofInt?_eq_none : ofInt? i = none ↔ beyond ≤ i.natAbs := by
  obtain ⟨top, htop⟩ : ∃ top, top = 971 := ⟨_, rfl⟩
  obtain ⟨half, hhalf⟩ : ∃ half, half = Nat.pow 2 970 := ⟨_, rfl⟩
  have hpos : 0 < half := by rw [hhalf]; decide +kernel
  have hwhole : Nat.pow 2 top = half * 2 := by rw [htop, hhalf]; decide +kernel
  have hlow : Nat.pow 2 1023 = 9007199254740992 * half := by rw [hhalf]; decide +kernel
  have hhigh : Nat.pow 2 1024 = 18014398509481984 * half := by rw [hhalf]; decide +kernel
  have h53 : Nat.pow 2 53 = 9007199254740992 := by decide
  have h52 : Nat.pow 2 52 = 4503599627370496 := by decide
  unfold ofInt? beyond
  rw [← hhalf, hhigh]
  generalize i.natAbs = n
  rcases Nat.eq_zero_or_pos n with rfl | hn
  · exact iff_of_false (Option.some_ne_none (ofBitsWithSign _ 0)) (by omega)
  · obtain ⟨q, e, -, hmantissa, -, hparts, hmade⟩ := ofRatio?_nat hn
    have hlog {k m : Nat} (hm : Nat.pow 2 k = m) : k ≤ n.log2 ↔ m ≤ n := hm ▸ Nat.le_log2 (Nat.ne_of_gt hn)
    have hnone : ofRatio? (decide (i < 0)) n 1 = none ↔ 971 < e := by
      rw [hmade, ite_eq_left_iff]
      exact ⟨fun h => Decidable.byContradiction fun hle => Option.some_ne_none _ (h hle), fun h hle => absurd h hle⟩
    rw [hnone]
    by_cases hlast : n.log2 = 1023
    · -- At the greatest exponent the mantissa decides: it is too large if it is rounded up to the next power of two.
      have hround := @le_roundedQuotient_iff n _ (Nat.pow 2 53) (scaled_pos n top) (by decide) (by decide)
      have hscaled : scaled n 1 top = (n, half * 2) := by
        rw [scaled, if_pos (Int.natCast_nonneg top), Nat.one_mul, Int.toNat_natCast, hwhole]
      rw [hlast, show ((1023 : Nat) : Int) - 52 = top by omega, hscaled, h53, h52] at hparts
      rw [hscaled, show 2 * Nat.pow 2 53 - 1 = 18014398509481983 by decide, h53] at hround
      rw [h53] at hmantissa
      dsimp only at hround hparts
      generalize roundedQuotient _ _ = rounded at hround hparts
      omega
    · have hless := hlog hlow
      have hmore := hlog hhigh
      omega

theorem denotes_of_ofInt? (h : ofInt? i = some x) : ∃ j, Denotes x j := by
  by_cases hzero : i = 0
  · subst hzero
    have hx : ofInt? 0 = some 0 := rfl
    rw [hx] at h
    cases h
    exact ⟨0, denotes_zero⟩
  · unfold ofInt? at h
    have hn : 0 < i.natAbs := Int.natAbs_pos.2 hzero
    obtain ⟨q, e, hlow, hhigh, he, hparts, hmade⟩ := ofRatio?_nat hn
    rw [hmade] at h
    split at h
    · cases h
    · obtain ⟨hfinite, hbits⟩ := ofFloat_ofBitsWithSign (decide (i < 0)) hlow hhigh (by omega) (by omega : e ≤ 971)
      cases h
      refine ⟨_, denotes_truncated (isIntegral_iff.2 ⟨hfinite, ?_⟩)⟩
      rw [hbits]
      unfold Binary.ratio
      split
      · exact Nat.mod_one _
      · rename_i hsmall
        have hsmall : ¬0 ≤ e := hsmall
        refine Nat.mod_eq_zero_of_dvd ?_
        rcases hparts with ⟨rfl, rfl⟩ | ⟨-, rfl, -⟩
        · -- What is below the mantissa's range is an integer times a power of two.
          rw [scaled, if_neg hsmall]
          have hexact := roundedQuotient_exact (i.natAbs * Nat.pow 2 (-((i.natAbs.log2 : Int) - 52)).toNat) Nat.one_pos
          rw [Nat.mul_one] at hexact
          rw [hexact]
          exact Nat.dvd_mul_left _ _
        · have hexponent : (-e).toNat ≤ 52 := by omega
          exact Nat.pow_dvd_pow 2 hexponent

end DeskScript.Number
