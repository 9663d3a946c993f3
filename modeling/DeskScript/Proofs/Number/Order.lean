import DeskScript.Proofs.Number.Exact

set_option autoImplicit false

/-!
# Doubles above zero

A double that is not at most zero is above zero, or it is NaN. The integer part of a finite one is positive, unless it is
below one. The double nearest to a positive integer is above zero. Main statements: `pos_of_not_le`,
`truncated_of_pos`, `ofInt?_pos`.
-/

namespace DeskScript.Number

open Float.Model Float.Model.UnpackedFloat

variable {x : Float}

theorem lt_iff (x y : Float) : x < y ↔ x.toModel.unpack.compare y.toModel.unpack = some .lt := by
  change (decide (x.toModel.unpack.lt y.toModel.unpack = true)) = true ↔ _
  rw [decide_eq_true_iff, UnpackedFloat.lt, beq_iff_eq]

theorem le_iff (x y : Float) :
    x ≤ y ↔ ((x.toModel.unpack.compare y.toModel.unpack).any (·.isLE)) = true := by
  change (decide (x.toModel.unpack.le y.toModel.unpack = true)) = true ↔ _
  rw [decide_eq_true_iff, UnpackedFloat.le]

theorem pos_of_not_le (h : ¬ x ≤ 0) : 0 < x ∨ x.isNaN = true := by
  rw [le_iff, unpack_zero] at h
  rw [lt_iff, unpack_zero]
  change _ ∨ x.toModel.unpack.isNaN = true
  generalize x.toModel.unpack = u at h ⊢
  cases u with
  | notANumber => exact .inr rfl
  | infinity sign =>
    cases sign with
    | positive => exact .inl rfl
    | negative => exact absurd rfl h
  | zero sign => cases sign <;> exact absurd rfl h
  | finite sign m e hm =>
    cases sign with
    | positive => exact .inl rfl
    | negative => exact absurd rfl h

theorem finite_of_not (hnan : ¬ x.isNaN = true) (hinf : ¬ x.isInf = true) : x.isFinite = true := by
  change ¬ x.toModel.unpack.isNaN = true at hnan
  change ¬ x.toModel.unpack.isInf = true at hinf
  change x.toModel.unpack.isFinite = true
  generalize x.toModel.unpack = u at hnan hinf ⊢
  cases u with
  | notANumber => exact absurd rfl hnan
  | infinity sign => exact absurd rfl hinf
  | zero | finite => rfl

theorem pos_iff (h : x.toBits.toNat / Nat.pow 2 52 % Nat.pow 2 11 ≠ 2047) :
    0 < x ↔ (Binary.ofFloat x).negative = false ∧ 0 < (Binary.ofFloat x).mantissa := by
  rw [lt_iff, unpack_zero]
  rcases unpack_cases h with ⟨sign, hunpack, hmantissa⟩ | ⟨hm, hunpack⟩
  · rw [hunpack, hmantissa]
    change some Ordering.eq = some .lt ↔ _
    simp
  · rw [hunpack]
    cases (Binary.ofFloat x).negative with
    | true =>
      change some Ordering.gt = some .lt ↔ true = false ∧ _
      simp
    | false =>
      change some Ordering.lt = some .lt ↔ false = false ∧ _
      simp [hm]

theorem unpack_one : (1 : Float).toModel.unpack = .finite .positive 4503599627370496 (-52) (by decide) := by rfl

theorem normal_or_least (x : Float) :
    4503599627370496 ≤ (Binary.ofFloat x).mantissa ∨ (Binary.ofFloat x).exponent = -1074 := by
  rw [ofFloat_eq]
  split
  · exact .inr rfl
  · exact .inl (Nat.le_add_left _ _)

/-- What is below one has a lesser exponent than one, or a lesser mantissa. -/
theorem below_one (hmantissa : 0 < (Binary.ofFloat x).mantissa)
    (hbelow : (Binary.ofFloat x).ratio.1 < (Binary.ofFloat x).ratio.2) : (Binary.ofFloat x).exponent < -52 ∨
      (Binary.ofFloat x).exponent = -52 ∧ (Binary.ofFloat x).mantissa < 4503599627370496 := by
  have hnormal := normal_or_least x
  generalize Binary.ofFloat x = b at hmantissa hbelow hnormal
  unfold Binary.ratio at hbelow
  split at hbelow
  · have hone : 1 ≤ b.mantissa * Nat.pow 2 b.exponent.toNat := Nat.mul_pos hmantissa (Nat.pow_pos (by decide))
    omega
  · dsimp only at hbelow
    rcases Int.lt_trichotomy b.exponent (-52) with hless | hsame | hgreater
    · exact .inl hless
    · refine .inr ⟨hsame, ?_⟩
      rwa [hsame, show Nat.pow 2 (-(-52 : Int)).toNat = 4503599627370496 by decide] at hbelow
    · have hpow : Nat.pow 2 (-b.exponent).toNat ≤ Nat.pow 2 52 := Nat.pow_le_pow_right (by decide) (by omega)
      rw [show Nat.pow 2 52 = 4503599627370496 by decide] at hpow
      omega

/-- The integer part of a double above zero is positive, or it is none and the double is below one. -/
theorem truncated_of_pos (hfinite : x.isFinite = true) (hpos : 0 < x) : 1 ≤ truncated x ∨ truncated x = 0 ∧ x < 1 := by
  have hfield := field_of_isFinite hfinite
  obtain ⟨hnegative, hmantissa⟩ := (pos_iff hfield).1 hpos
  have htruncated : truncated x = ((Binary.ofFloat x).ratio.1 / (Binary.ofFloat x).ratio.2 : Nat) := by
    unfold truncated
    dsimp only
    rw [hnegative]
    rfl
  rcases Nat.eq_zero_or_pos ((Binary.ofFloat x).ratio.1 / (Binary.ofFloat x).ratio.2) with hnone | hsome
  · refine .inr ⟨by rw [htruncated, hnone]; rfl, ?_⟩
    have hbelow := below_one hmantissa ((Nat.div_eq_zero_iff_lt (Binary.ofFloat x).ratio_pos).1 hnone)
    rw [lt_iff, unpack_one]
    rcases unpack_cases hfield with ⟨sign, -, hempty⟩ | ⟨hm, hunpack⟩
    · omega
    · rw [hunpack, hnegative, if_neg Bool.false_ne_true]
      change some ((compare (Binary.ofFloat x).exponent (-52)).then
        (compare (Binary.ofFloat x).mantissa 4503599627370496)) = some .lt
      rw [Option.some.injEq, Ordering.then_eq_lt]
      rcases hbelow with hless | ⟨hsame, hless⟩
      · exact .inl (Int.compare_eq_lt.2 hless)
      · exact .inr ⟨Int.compare_eq_eq.2 hsame, Nat.compare_eq_lt.2 hless⟩
  · exact .inl (by omega)

/-- A mantissa of 53 bits and an exponent within the range of doubles are those of the double made up of them. -/
theorem ofFloat_ofBitsWithSign {q : Nat} {e : Int} (negative : Bool) (hlow : Nat.pow 2 52 ≤ q) (hhigh : q < Nat.pow 2 53)
    (he : -1074 ≤ e) (he' : e ≤ 971) :
    (ofBitsWithSign negative ((e + 1075).toNat * Nat.pow 2 52 + (q - Nat.pow 2 52))).isFinite = true ∧
      Binary.ofFloat (ofBitsWithSign negative ((e + 1075).toNat * Nat.pow 2 52 + (q - Nat.pow 2 52))) = ⟨negative, q, e⟩ := by
  have h52 : Nat.pow 2 52 = 4503599627370496 := by decide
  have h63 : Nat.pow 2 63 = 9223372036854775808 := by decide
  rw [h52] at hlow ⊢
  rw [show Nat.pow 2 53 = 9007199254740992 by decide] at hhigh
  obtain ⟨field, hfield⟩ : ∃ field, field = (e + 1075).toNat := ⟨_, rfl⟩
  rw [← hfield]
  -- The sign stands above the field and the fraction.
  obtain ⟨bits, hbits⟩ : ∃ bits, bits = if negative = true then
      field * 4503599627370496 + (q - 4503599627370496) + 9223372036854775808
    else field * 4503599627370496 + (q - 4503599627370496) := ⟨_, rfl⟩
  have hrange : bits < 18446744073709551616 ∧ bits / 4503599627370496 % 2048 = field ∧
      bits % 4503599627370496 = q - 4503599627370496 ∧ (bits / 9223372036854775808 == 1) = negative := by
    cases negative with
    | true =>
      rw [if_pos rfl] at hbits
      exact ⟨by omega, by omega, by omega, beq_iff_eq.2 (by omega)⟩
    | false =>
      rw [if_neg Bool.false_ne_true] at hbits
      exact ⟨by omega, by omega, by omega, beq_eq_false_iff_ne.2 (by omega)⟩
  obtain ⟨hword, hexponent, hfraction, hsign⟩ := hrange
  have hmade : (UInt64.ofNat bits).toNat = bits := by
    rw [UInt64.toNat_ofNat']
    exact Nat.mod_eq_of_lt hword
  have hsame : (Float.ofBits (UInt64.ofNat bits)).toBits = UInt64.ofNat bits := by
    refine toBits_ofBits ?_
    rw [hmade, h52, show Nat.pow 2 11 = 2048 by decide]
    omega
  unfold ofBitsWithSign
  rw [h63, ← hbits]
  refine ⟨?_, ?_⟩
  · have hfinite : (Float.ofBits (UInt64.ofNat bits)).toBits.toNat / Nat.pow 2 52 % Nat.pow 2 11 ≠ 2047 := by
      rw [hsame, hmade, h52, show Nat.pow 2 11 = 2048 by decide]
      omega
    change (Float.ofBits (UInt64.ofNat bits)).toModel.unpack.isFinite = true
    rcases unpack_cases hfinite with ⟨sign, hunpack, -⟩ | ⟨hm, hunpack⟩
    · rw [hunpack]
      rfl
    · rw [hunpack]
      rfl
  · rw [ofFloat_eq, hsame, hmade, hsign, hfraction, hexponent, if_neg (by omega), Nat.sub_add_cancel hlow,
      show (field : Int) - 1075 = e by omega]

theorem normal_pos {q : Nat} {e : Int} (hlow : Nat.pow 2 52 ≤ q) (hhigh : q < Nat.pow 2 53) (he : -1074 ≤ e)
    (he' : e ≤ 971) : 0 < ofBitsWithSign false ((e + 1075).toNat * Nat.pow 2 52 + (q - Nat.pow 2 52)) := by
  obtain ⟨hfinite, hparts⟩ := ofFloat_ofBitsWithSign false hlow hhigh he he'
  refine (pos_iff (field_of_isFinite hfinite)).2 ?_
  rw [hparts]
  exact ⟨rfl, Nat.lt_of_lt_of_le (by decide) hlow⟩

theorem scaled_ge {n k : Nat} {e : Int} (hn : 0 < n) (h : e + k ≤ n.log2) :
    Nat.pow 2 k * (scaled n 1 e).2 ≤ (scaled n 1 e).1 := by
  have hleast : Nat.pow 2 n.log2 ≤ n := Nat.log2_self_le (Nat.ne_of_gt hn)
  unfold scaled
  split
  · rw [Nat.one_mul]
    refine Nat.le_trans ?_ hleast
    change 2 ^ k * 2 ^ e.toNat ≤ 2 ^ n.log2
    rw [← Nat.pow_add]
    exact Nat.pow_le_pow_right (by decide) (by omega)
  · refine Nat.le_trans ?_ (Nat.mul_le_mul_right (Nat.pow 2 (-e).toNat) hleast)
    change 2 ^ k * 1 ≤ 2 ^ n.log2 * 2 ^ (-e).toNat
    rw [Nat.mul_one, ← Nat.pow_add]
    exact Nat.pow_le_pow_right (by decide) (by omega)

theorem scaled_lt {n k : Nat} {e : Int} (h : n.log2 < e + k) : (scaled n 1 e).1 < Nat.pow 2 k * (scaled n 1 e).2 := by
  have hgreatest : n < Nat.pow 2 (n.log2 + 1) := Nat.lt_log2_self
  unfold scaled
  split
  · rw [Nat.one_mul]
    refine Nat.lt_of_lt_of_le hgreatest ?_
    change 2 ^ (n.log2 + 1) ≤ 2 ^ k * 2 ^ e.toNat
    rw [← Nat.pow_add]
    exact Nat.pow_le_pow_right (by decide) (by omega)
  · refine Nat.lt_of_lt_of_le (Nat.mul_lt_mul_of_pos_right hgreatest (Nat.pow_pos (by decide))) ?_
    change 2 ^ (n.log2 + 1) * 2 ^ (-e).toNat ≤ 2 ^ k * 1
    rw [Nat.mul_one, ← Nat.pow_add]
    exact Nat.pow_le_pow_right (by decide) (by omega)

/-- A natural number divided by its power of two has a mantissa of 53 bits. -/
theorem exponentFor_nat {n : Nat} (hn : 0 < n) : exponentFor n 1 = (n.log2 : Int) - 52 := by
  have hguess : (n.log2 : Int) - (Nat.log2 1 : Nat) - 53 = n.log2 - 53 := by
    rw [show Nat.log2 1 = 0 by decide]
    omega
  have hlow := scaled_ge (k := 53) (e := n.log2 - 53) hn (by omega)
  rw [Nat.mul_comm] at hlow
  unfold exponentFor
  rw [hguess]
  dsimp only
  rw [if_neg (Nat.not_lt.2 hlow)]
  omega

theorem le_roundedQuotient {num den c : Nat} (hden : 0 < den) (h : c * den ≤ num) : c ≤ roundedQuotient num den := by
  have hquotient : c ≤ num / den := (Nat.le_div_iff_mul_le hden).2 h
  unfold roundedQuotient
  dsimp only
  split
  · exact hquotient
  · split
    · omega
    · split <;> omega

theorem scaled_pos (n : Nat) (e : Int) : 0 < (scaled n 1 e).2 := by
  unfold scaled
  split
  · exact Nat.mul_pos Nat.one_pos (Nat.pow_pos (by decide))
  · exact Nat.one_pos

/-- The mantissa that is rounded from a positive integer has 53 bits, or it is the next power of two. -/
theorem mantissa_bounds {n : Nat} (hn : 0 < n) :
    Nat.pow 2 52 ≤ roundedQuotient (scaled n 1 (n.log2 - 52)).1 (scaled n 1 (n.log2 - 52)).2 ∧
      roundedQuotient (scaled n 1 (n.log2 - 52)).1 (scaled n 1 (n.log2 - 52)).2 ≤ Nat.pow 2 53 :=
  ⟨le_roundedQuotient (scaled_pos n _) (scaled_ge hn (by omega)),
    roundedQuotient_le (scaled_pos n _) (Nat.le_of_lt (scaled_lt (by omega)))⟩

/-- The parts of the double nearest to a positive integer, if it is none too large. A mantissa that was rounded up to the
next power of two is halved. -/
theorem ofRatio?_nat {n : Nat} (hn : 0 < n) : ∃ (q : Nat) (e : Int), Nat.pow 2 52 ≤ q ∧ q < Nat.pow 2 53 ∧ -52 ≤ e ∧
    (e = n.log2 - 52 ∧ q = roundedQuotient (scaled n 1 (n.log2 - 52)).1 (scaled n 1 (n.log2 - 52)).2 ∨
      e = n.log2 - 51 ∧ q = Nat.pow 2 52 ∧
        roundedQuotient (scaled n 1 (n.log2 - 52)).1 (scaled n 1 (n.log2 - 52)).2 = Nat.pow 2 53) ∧
    ∀ negative, ofRatio? negative n 1 = if 971 < e then none else
      some (ofBitsWithSign negative ((e + 1075).toNat * Nat.pow 2 52 + (q - Nat.pow 2 52))) := by
  obtain ⟨hlow, hhigh⟩ := mantissa_bounds hn
  have hratio (negative : Bool) : ofRatio? negative n 1 =
      ofParts? negative (roundedQuotient (scaled n 1 (n.log2 - 52)).1 (scaled n 1 (n.log2 - 52)).2) (n.log2 - 52) := by
    unfold ofRatio?
    rw [if_neg (Nat.ne_of_gt hn), exponentFor_nat hn]
  simp only [hratio]
  generalize roundedQuotient _ _ = q at hlow hhigh ⊢
  unfold ofParts?
  by_cases hcarry : q = Nat.pow 2 53
  · refine ⟨Nat.pow 2 52, n.log2 - 51, Nat.le_refl _, by decide, by omega, .inr ⟨rfl, rfl, hcarry⟩, fun negative => ?_⟩
    rw [if_pos hcarry, show (n.log2 : Int) - 52 + 1 = n.log2 - 51 by omega]
    dsimp only
    rw [if_neg (Nat.lt_irrefl (Nat.pow 2 52))]
  · refine ⟨q, n.log2 - 52, hlow, Nat.lt_of_le_of_ne hhigh hcarry, by omega, .inl ⟨rfl, rfl⟩, fun negative => ?_⟩
    rw [if_neg hcarry]
    dsimp only
    rw [if_neg (Nat.not_lt.2 hlow)]

theorem ofRatio?_pos {n : Nat} (hn : 0 < n) (h : ofRatio? false n 1 = some x) : 0 < x := by
  obtain ⟨q, e, hlow, hhigh, he, -, hmade⟩ := ofRatio?_nat hn
  rw [hmade] at h
  split at h
  · cases h
  · cases h
    exact normal_pos hlow hhigh (by omega) (by omega)

/-- The double nearest to a positive integer is above zero. -/
theorem ofInt?_pos {i : Int} (hi : 0 < i) (h : ofInt? i = some x) : 0 < x := by
  unfold ofInt? at h
  rw [decide_eq_false (by omega)] at h
  exact ofRatio?_pos (by omega) h

end DeskScript.Number
