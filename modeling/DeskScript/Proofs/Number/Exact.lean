import DeskScript.Proofs.Value.Readable

set_option autoImplicit false

/-!
# Integral doubles are read back exactly

A finite double is made up again from its bits. If it is an integer, its mantissa has 53 bits and the exponent that is
chosen for the integer is its own, so that nothing is rounded. Main statement: `ofInt?_truncated_of_integral`.
-/

namespace DeskScript.Number

open Float.Model Float.Model.UnpackedFloat

theorem eq_of_toBits {x y : Float} (h : x.toBits = y.toBits) : x = y := by
  obtain ⟨⟨b, hb⟩⟩ := x
  obtain ⟨⟨c, hc⟩⟩ := y
  obtain rfl : b = c := h
  rfl

theorem toBitVec_ofBitVec (b : BitVec 1) : (Sign.ofBitVec b).toBitVec = b := by
  rcases BitVec.eq_zero_or_eq_one b with rfl | rfl <;> rfl

theorem packComponents_unpack (v : BitVec Format.binary64.numBits) :
    packComponents Format.binary64 (Sign.ofBitVec (unpackSign v)) (unpackExponent v) (unpackMantissa v) = v := by
  unfold packComponents
  rw [toBitVec_ofBitVec]
  unfold unpackSign unpackExponent unpackMantissa
  apply BitVec.eq_of_getLsbD_eq
  intro i hi
  have hi : i < 64 := hi
  simp only [BitVec.getLsbD_append, BitVec.getLsbD_cast, BitVec.getLsbD_extractLsb]
  split
  · rw [decide_eq_true (by omega), Bool.true_and, Nat.zero_add]
  · split
    · rw [decide_eq_true (by omega), Bool.true_and, Nat.add_sub_cancel' (by omega)]
    · rw [decide_eq_true (by omega), Bool.true_and, show 52 + 11 + (i - 52 - 11) = i by omega]

theorem pack_subnormal (sign : Sign) {m : Nat} (hm : 0 < m) (hlt : m < Nat.pow 2 52) :
    UnpackedFloat.pack Format.binary64 (.finite sign m (-1074) hm) =
      packComponents Format.binary64 sign 0#_ (BitVec.ofNat _ m) := by
  have hlog : m.log2 < 52 := (Nat.log2_lt (Nat.ne_of_gt hm)).2 hlt
  have hbits : ¬ m.log2 + 1 = Format.binary64.mantissaBits := by
    change ¬ m.log2 + 1 = 53
    omega
  unfold UnpackedFloat.pack
  dsimp only
  rw [if_neg (by decide), if_neg hbits]

theorem pack_normal (sign : Sign) {m field : Nat} (hm : 0 < m) (hlow : Nat.pow 2 52 ≤ m)
    (hhigh : m < Nat.pow 2 53) (hfield : field < 2047) :
    UnpackedFloat.pack Format.binary64 (.finite sign m ((field : Int) - 1075) hm) =
      packComponents Format.binary64 sign (BitVec.ofNat _ field) (BitVec.ofNat _ m) := by
  have hlog : m.log2 = 52 := (Nat.log2_eq_iff (Nat.ne_of_gt hm)).2 ⟨hlow, hhigh⟩
  have hbiased : ((field : Int) - 1075 + Format.binary64.exponentBias +
      Format.binary64.mantissaBitsWithoutImplicit).toNat = field := by
    change ((field : Int) - 1075 + (1023 : Nat) + (52 : Nat)).toNat = field
    omega
  have hfits : ¬ 2 ^ Format.binary64.exponentBits ≤ field + 1 := by
    change ¬ 2048 ≤ field + 1
    omega
  unfold UnpackedFloat.pack
  dsimp only
  rw [hbiased, if_neg hfits, hlog]
  exact if_pos rfl

theorem pack_unpack {v : BitVec Format.binary64.numBits} (h : unpackExponent v ≠ -1#_) :
    UnpackedFloat.pack Format.binary64 (UnpackedFloat.unpack Format.binary64 v) = v := by
  have hcomponents := packComponents_unpack v
  have hmantissa := (unpackMantissa v).isLt
  have hexponent := (unpackExponent v).isLt
  unfold UnpackedFloat.unpack
  dsimp only
  rw [if_neg h]
  by_cases hzero : unpackExponent v = 0#_
  · rw [if_pos hzero]
    rw [hzero] at hcomponents ⊢
    by_cases hnone : unpackMantissa v = 0#_
    · rw [dif_pos hnone]
      rw [hnone] at hcomponents
      exact hcomponents
    · rw [dif_neg hnone]
      refine (pack_subnormal _ _ hmantissa).trans ?_
      rw [BitVec.ofNat_toNat, BitVec.setWidth_eq]
      exact hcomponents
  · rw [if_neg hzero]
    have hmaximum : (unpackExponent v).toNat ≠ 2047 := fun hlast => h (BitVec.eq_of_toNat_eq hlast)
    have hwhole : (1#1 ++ unpackMantissa v).toNat = Nat.pow 2 52 + (unpackMantissa v).toNat := by
      rw [BitVec.toNat_append, ← Nat.shiftLeft_add_eq_or_of_lt hmantissa]
      rfl
    have hlow : BitVec.ofNat 52 (1#1 ++ unpackMantissa v).toNat = unpackMantissa v := by
      apply BitVec.eq_of_toNat_eq
      rw [hwhole, BitVec.toNat_ofNat]
      change (2 ^ 52 + (unpackMantissa v).toNat) % 2 ^ 52 = _
      rw [Nat.add_mod_left, Nat.mod_eq_of_lt hmantissa]
    have hmantissa : (unpackMantissa v).toNat < 2 ^ 52 := hmantissa
    have hexponent : (unpackExponent v).toNat < 2048 := hexponent
    refine (pack_normal _ _ ?_ ?_ ?_).trans ?_
    · rw [hwhole]
      exact Nat.le_add_right _ _
    · rw [hwhole]
      exact Nat.add_lt_add_left hmantissa (2 ^ 52)
    · omega
    · rw [hlow, BitVec.ofNat_toNat, BitVec.setWidth_eq]
      exact hcomponents

theorem unpackExponent_toNat (v : BitVec Format.binary64.numBits) :
    (unpackExponent v).toNat = v.toNat / Nat.pow 2 52 % Nat.pow 2 11 := by
  simp only [unpackExponent, BitVec.toNat_cast, BitVec.extractLsb_toNat]
  rw [Nat.shiftRight_eq_div_pow]

theorem unpackMantissa_toNat (v : BitVec Format.binary64.numBits) :
    (unpackMantissa v).toNat = v.toNat % Nat.pow 2 52 := by
  simp only [unpackMantissa, BitVec.toNat_cast, BitVec.extractLsb_toNat, Nat.shiftRight_zero]

theorem unpackExponent_ne {b : UInt64} (h : b.toNat / Nat.pow 2 52 % Nat.pow 2 11 ≠ 2047) :
    @unpackExponent Format.binary64 b.toBitVec ≠ -1#_ := by
  intro hlast
  apply h
  have hvalue := congrArg BitVec.toNat hlast
  rwa [unpackExponent_toNat] at hvalue

theorem toBits_ofBits {b : UInt64} (h : b.toNat / Nat.pow 2 52 % Nat.pow 2 11 ≠ 2047) :
    (Float.ofBits b).toBits = b := by
  change UInt64.ofBitVec (UnpackedFloat.pack Format.binary64 (UnpackedFloat.unpack Format.binary64 b.toBitVec)) = b
  rw [pack_unpack (unpackExponent_ne h)]

theorem ofBits_toBits {x : Float} (h : x.isFinite = true) : Float.ofBits x.toBits = x :=
  eq_of_toBits (toBits_ofBits (field_of_isFinite h))

/-- The parts of a double, with the powers of two written out. -/
theorem ofFloat_eq (x : Float) : Binary.ofFloat x =
    if x.toBits.toNat / 4503599627370496 % 2048 = 0 then
      ⟨x.toBits.toNat / 9223372036854775808 == 1, x.toBits.toNat % 4503599627370496, -1074⟩
    else ⟨x.toBits.toNat / 9223372036854775808 == 1, x.toBits.toNat % 4503599627370496 + 4503599627370496,
      (x.toBits.toNat / 4503599627370496 % 2048 : Nat) - 1075⟩ := rfl

theorem unpack_zero : (0 : Float).toModel.unpack = .zero .positive := by rfl

theorem unpackSign_eq (x : Float) : Sign.ofBitVec (@unpackSign Format.binary64 x.toBits.toBitVec) =
    if (Binary.ofFloat x).negative = true then .negative else .positive := by
  have hbits : x.toBits.toNat < 18446744073709551616 := x.toBits.toNat_lt
  have hsign : (@unpackSign Format.binary64 x.toBits.toBitVec).toNat = x.toBits.toNat / 9223372036854775808 := by
    change (BitVec.extractLsb 63 63 x.toBits.toBitVec).toNat = _
    rw [BitVec.extractLsb_toNat]
    change x.toBits.toNat >>> 63 % 2 ^ 1 = _
    rw [Nat.shiftRight_eq_div_pow]
    omega
  have hnegative : (Binary.ofFloat x).negative = (x.toBits.toNat / 9223372036854775808 == 1) := by
    rw [ofFloat_eq]
    split <;> rfl
  rw [hnegative, ← hsign]
  rcases BitVec.eq_zero_or_eq_one (@unpackSign Format.binary64 x.toBits.toBitVec) with hzero | hone
  · rw [hzero]
    rfl
  · rw [hone]
    rfl

theorem finite_congr {sign : Sign} {m m' : Nat} {e e' : Int} {hm : 0 < m} (hmantissa : m = m') (hexponent : e = e') :
    ∃ hm', UnpackedFloat.finite sign m e hm = .finite sign m' e' hm' := by
  subst hmantissa
  subst hexponent
  exact ⟨hm, rfl⟩

/-- A double that is neither infinite nor NaN has the parts that it is taken apart into. -/
theorem unpack_cases {x : Float} (h : x.toBits.toNat / Nat.pow 2 52 % Nat.pow 2 11 ≠ 2047) :
    (∃ sign, x.toModel.unpack = .zero sign ∧ (Binary.ofFloat x).mantissa = 0) ∨
    ∃ hm, x.toModel.unpack = .finite (if (Binary.ofFloat x).negative = true then .negative else .positive)
      (Binary.ofFloat x).mantissa (Binary.ofFloat x).exponent hm := by
  have hexponent := unpackExponent_ne h
  have hfield := unpackExponent_toNat x.toBits.toBitVec
  have hfraction := unpackMantissa_toNat x.toBits.toBitVec
  have h52 : Nat.pow 2 52 = 4503599627370496 := by decide
  have h11 : Nat.pow 2 11 = 2048 := by decide
  rw [h52, h11] at hfield
  rw [h52] at hfraction
  change _ = x.toBits.toNat / _ % _ at hfield
  change _ = x.toBits.toNat % _ at hfraction
  change (∃ sign, UnpackedFloat.unpack Format.binary64 x.toBits.toBitVec = _ ∧ _) ∨
    ∃ hm, UnpackedFloat.unpack Format.binary64 x.toBits.toBitVec = _
  rw [← unpackSign_eq]
  unfold UnpackedFloat.unpack
  dsimp only
  rw [if_neg hexponent, ofFloat_eq]
  by_cases hzero : @unpackExponent Format.binary64 x.toBits.toBitVec = 0#_
  · have hnone : x.toBits.toNat / 4503599627370496 % 2048 = 0 := by
      rw [← hfield, hzero]
      rfl
    rw [if_pos hzero, if_pos hnone]
    by_cases hempty : @unpackMantissa Format.binary64 x.toBits.toBitVec = 0#_
    · rw [dif_pos hempty]
      rw [hempty] at hfraction
      exact .inl ⟨_, rfl, hfraction.symm⟩
    · rw [dif_neg hempty]
      refine .inr (finite_congr hfraction ?_)
      rw [hzero]
      rfl
  · have hsome : ¬ x.toBits.toNat / 4503599627370496 % 2048 = 0 := by
      rw [← hfield]
      exact fun heq => hzero (BitVec.eq_of_toNat_eq heq)
    have hwhole : (1#1 ++ @unpackMantissa Format.binary64 x.toBits.toBitVec).toNat =
        4503599627370496 + (@unpackMantissa Format.binary64 x.toBits.toBitVec).toNat := by
      rw [BitVec.toNat_append, ← Nat.shiftLeft_add_eq_or_of_lt
        (@unpackMantissa Format.binary64 x.toBits.toBitVec).isLt]
      rfl
    rw [if_neg hzero, if_neg hsome]
    refine .inr (finite_congr ?_ ?_)
    · rw [hwhole, hfraction, Nat.add_comm]
    · rw [hfield]
      rfl

theorem roundedQuotient_exact (m : Nat) {d : Nat} (hd : 0 < d) : roundedQuotient (m * d) d = m := by
  unfold roundedQuotient
  dsimp only
  rw [Nat.mul_mod_left, Nat.mul_div_cancel m hd, if_pos (by omega)]

/-- A mantissa of 53 bits times a power of two that is an integer. -/
structure Whole (n m : Nat) (e : Int) : Prop where
  low : Nat.pow 2 52 ≤ m
  high : m < Nat.pow 2 53
  positive : 0 < n
  up : 0 ≤ e → n = m * Nat.pow 2 e.toNat
  down : e < 0 → n * Nat.pow 2 (-e).toNat = m

variable {n m : Nat} {e : Int}

theorem Whole.log2 (h : Whole n m e) : (n.log2 : Int) = 52 + e := by
  rcases Int.lt_or_le e 0 with he | he
  · obtain ⟨k, hk⟩ : ∃ k : Nat, e = -(k : Int) := ⟨(-e).toNat, by omega⟩
    have hdown := h.down he
    rw [hk, Int.neg_neg, Int.toNat_natCast] at hdown
    have hsmall : k ≤ 52 := by
      refine Nat.le_of_not_lt fun hlarge => ?_
      have hpow : Nat.pow 2 53 ≤ Nat.pow 2 k := Nat.pow_le_pow_right (by decide) (by omega)
      have hle : Nat.pow 2 k ≤ n * Nat.pow 2 k := Nat.le_mul_of_pos_left _ h.positive
      have hhigh := h.high
      omega
    have hpow (j : Nat) : Nat.pow 2 (j - k + k) = Nat.pow 2 (j - k) * Nat.pow 2 k := Nat.pow_add 2 (j - k) k
    have hpositive : 0 < Nat.pow 2 k := Nat.pow_pos (by decide)
    have hlog : n.log2 = 52 - k := by
      refine (Nat.log2_eq_iff (Nat.ne_of_gt h.positive)).2 ⟨?_, ?_⟩
      · refine Nat.le_of_mul_le_mul_right ?_ hpositive
        have hlow := h.low
        have h52 := hpow 52
        rw [Nat.sub_add_cancel hsmall] at h52
        change Nat.pow 2 (52 - k) * _ ≤ _
        omega
      · refine Nat.lt_of_mul_lt_mul_right (a := Nat.pow 2 k) ?_
        have hhigh := h.high
        have h53 := hpow 53
        rw [Nat.sub_add_cancel (by omega)] at h53
        rw [show 52 - k + 1 = 53 - k by omega]
        change _ < Nat.pow 2 (53 - k) * _
        omega
    omega
  · obtain ⟨k, rfl⟩ := Int.eq_ofNat_of_zero_le he
    have hup := h.up he
    rw [Int.toNat_natCast] at hup
    have hlog : n.log2 = 52 + k := by
      refine (Nat.log2_eq_iff (Nat.ne_of_gt h.positive)).2 ⟨?_, ?_⟩
      · rw [hup, Nat.pow_add]
        exact Nat.mul_le_mul_right _ h.low
      · rw [hup, show 52 + k + 1 = 53 + k by omega, Nat.pow_add]
        exact Nat.mul_lt_mul_of_pos_right h.high (Nat.pow_pos (by decide))
    omega

theorem Whole.exponentFor (h : Whole n m e) (he : -1074 ≤ e) : exponentFor n 1 = e := by
  have hlog := h.log2
  have hguess : (n.log2 : Int) - (Nat.log2 1 : Nat) - 53 = e - 1 := by
    rw [show Nat.log2 1 = 0 by decide]
    omega
  have hlow : ¬ (scaled n 1 (e - 1)).1 < (scaled n 1 (e - 1)).2 * Nat.pow 2 53 := by
    have hm := h.low
    unfold scaled
    split
    · rename_i hpositive
      have hup := h.up (by omega)
      obtain ⟨k, rfl⟩ : ∃ k : Nat, e = k + 1 := ⟨(e - 1).toNat, by omega⟩
      have hpow : Nat.pow 2 (k + 1) * Nat.pow 2 52 = Nat.pow 2 k * Nat.pow 2 53 := by
        change 2 ^ (k + 1) * 2 ^ 52 = 2 ^ k * 2 ^ 53
        rw [← Nat.pow_add, ← Nat.pow_add]
      have hle := Nat.mul_le_mul_left (Nat.pow 2 (k + 1)) hm
      rw [show ((k : Int) + 1).toNat = k + 1 by omega, Nat.mul_comm] at hup
      rw [show ((k : Int) + 1 - 1).toNat = k by omega, Nat.one_mul]
      dsimp only
      omega
    · have hdouble : n * Nat.pow 2 (-(e - 1)).toNat = 2 * m := by
        rcases Int.lt_or_le e 0 with hneg | hpos
        · have hdown := h.down hneg
          rw [show (-(e - 1)).toNat = (-e).toNat + 1 by omega, ← hdown]
          change n * 2 ^ _ = 2 * (n * 2 ^ _)
          rw [Nat.pow_succ]
          ac_rfl
        · obtain rfl : e = 0 := by omega
          have hup := h.up (Int.le_refl 0)
          rw [hup]
          change m * 2 ^ 0 * 2 ^ 1 = 2 * m
          omega
      have hnext : Nat.pow 2 53 = 2 * Nat.pow 2 52 := by decide
      dsimp only
      omega
  unfold Number.exponentFor
  rw [hguess]
  dsimp only
  rw [if_neg hlow]
  omega

theorem Whole.ofRatio? (h : Whole n m e) (he : -1074 ≤ e) (he' : e ≤ 971) (negative : Bool) :
    ofRatio? negative n 1 =
      some (ofBitsWithSign negative ((e + 1075).toNat * Nat.pow 2 52 + (m - Nat.pow 2 52))) := by
  have hrounded : roundedQuotient (scaled n 1 e).1 (scaled n 1 e).2 = m := by
    unfold scaled
    split
    · rename_i hpositive
      rw [h.up hpositive, Nat.one_mul]
      exact roundedQuotient_exact m (Nat.pow_pos (by decide))
    · rename_i hnegative
      dsimp only
      rw [h.down (by omega)]
      have hone := roundedQuotient_exact m Nat.one_pos
      rwa [Nat.mul_one] at hone
  have hlow := h.low
  have hhigh := h.high
  unfold Number.ofRatio?
  rw [if_neg (Nat.ne_of_gt h.positive), h.exponentFor he]
  dsimp only
  rw [hrounded]
  unfold ofParts?
  rw [if_neg (by omega)]
  dsimp only
  rw [if_neg (by omega), if_neg (by omega)]

theorem ofBitsWithSign_ofFloat {x : Float} (h : x.isFinite = true)
    (hnormal : Nat.pow 2 52 ≤ (Binary.ofFloat x).mantissa) :
    -1074 ≤ (Binary.ofFloat x).exponent ∧
      ofBitsWithSign (Binary.ofFloat x).negative (((Binary.ofFloat x).exponent + 1075).toNat * Nat.pow 2 52 +
        ((Binary.ofFloat x).mantissa - Nat.pow 2 52)) = x := by
  have h52 : Nat.pow 2 52 = 4503599627370496 := by decide
  have h63 : Nat.pow 2 63 = 9223372036854775808 := by decide
  have hbits : x.toBits.toNat < 18446744073709551616 := x.toBits.toNat_lt
  rw [h52] at hnormal ⊢
  rw [ofFloat_eq] at hnormal ⊢
  by_cases hfield : x.toBits.toNat / 4503599627370496 % 2048 = 0
  · rw [if_pos hfield] at hnormal
    dsimp only at hnormal
    omega
  · rw [if_neg hfield] at hnormal ⊢
    dsimp only at hnormal ⊢
    refine ⟨by omega, ?_⟩
    have hsum (sign : Nat) (hsign : x.toBits.toNat / 9223372036854775808 = sign) :
        (((x.toBits.toNat / 4503599627370496 % 2048 : Nat) : Int) - 1075 + 1075).toNat * 4503599627370496 +
          (x.toBits.toNat % 4503599627370496 + 4503599627370496 - 4503599627370496) + sign * 9223372036854775808 =
            x.toBits.toNat := by
      omega
    have hback : Float.ofBits (UInt64.ofNat x.toBits.toNat) = x := by rw [UInt64.ofNat_toNat, ofBits_toBits h]
    unfold ofBitsWithSign
    rw [h63]
    cases hsign : x.toBits.toNat / 9223372036854775808 == 1 with
    | true =>
      rw [if_pos rfl, ← Nat.one_mul 9223372036854775808, hsum 1 (beq_iff_eq.1 hsign), hback]
    | false =>
      have hpositive : x.toBits.toNat / 9223372036854775808 = 0 := by
        rw [beq_eq_false_iff_ne] at hsign
        omega
      have hsum := hsum 0 hpositive
      rw [Nat.zero_mul, Nat.add_zero] at hsum
      rw [if_neg Bool.false_ne_true, hsum, hback]

theorem compare_zero (sign : Sign) {m : Nat} {e : Int} (hm : 0 < m) :
    ((UnpackedFloat.finite sign m e hm).compare (.zero .positive) == some .eq) = false := by
  cases sign <;> rfl

theorem compare_zero_self (sign : Sign) :
    ((UnpackedFloat.zero sign).compare (.zero .positive) == some .eq) = true := by
  cases sign <;> rfl

/-- Zero, of either sign, is the double with the mantissa zero. -/
theorem beq_zero_iff {x : Float} (h : x.isFinite = true) : (x == 0) = true ↔ (Binary.ofFloat x).mantissa = 0 := by
  change (x.toModel.unpack.compare (0 : Float).toModel.unpack == some .eq) = true ↔ _
  rw [unpack_zero]
  rcases unpack_cases (field_of_isFinite h) with ⟨sign, hunpack, hmantissa⟩ | ⟨hm, hunpack⟩
  · rw [hunpack, compare_zero_self, hmantissa]
    exact iff_of_true rfl rfl
  · rw [hunpack, compare_zero]
    exact iff_of_false Bool.false_ne_true (Nat.ne_of_gt hm)

/-- A double below the normal ones is no integer, unless it is zero. -/
theorem normal_of_whole {x : Float} (hzero : (Binary.ofFloat x).mantissa ≠ 0)
    (hwhole : (Binary.ofFloat x).ratio.1 % (Binary.ofFloat x).ratio.2 = 0) :
    Nat.pow 2 52 ≤ (Binary.ofFloat x).mantissa := by
  have h52 : Nat.pow 2 52 = 4503599627370496 := by decide
  have hlow : x.toBits.toNat % 4503599627370496 < 4503599627370496 := Nat.mod_lt _ (by decide)
  rw [ofFloat_eq] at hzero hwhole ⊢
  split
  · rename_i hfield
    rw [if_pos hfield] at hzero hwhole
    have hleast (k : Nat) (hk : 52 ≤ k) : 4503599627370496 ≤ Nat.pow 2 k := by
      rw [← h52]
      exact Nat.pow_le_pow_right (by decide) hk
    unfold Binary.ratio at hwhole
    dsimp only at hwhole hzero
    rw [if_neg (by decide)] at hwhole
    dsimp only at hwhole
    rw [Nat.mod_eq_of_lt (Nat.lt_of_lt_of_le hlow (hleast _ (by decide)))] at hwhole
    contradiction
  · dsimp only
    omega

theorem whole_of_ratio {b : Binary} (hlow : Nat.pow 2 52 ≤ b.mantissa) (hhigh : b.mantissa < Nat.pow 2 53)
    (hwhole : b.ratio.1 % b.ratio.2 = 0) : Whole (b.ratio.1 / b.ratio.2) b.mantissa b.exponent := by
  have hpositive : 0 < b.mantissa := Nat.lt_of_lt_of_le (by decide) hlow
  have hexact : b.ratio.1 / b.ratio.2 * b.ratio.2 = b.ratio.1 := Nat.div_mul_cancel (Nat.dvd_of_mod_eq_zero hwhole)
  unfold Binary.ratio at hexact ⊢
  split at hexact <;> rename_i hexponent <;> dsimp only at hexact
  · rw [if_pos hexponent]
    rw [Nat.mul_one] at hexact
    refine ⟨hlow, hhigh, ?_, fun _ => hexact, fun h => by omega⟩
    rw [hexact]
    exact Nat.mul_pos hpositive (Nat.pow_pos (by decide))
  · rw [if_neg hexponent]
    refine ⟨hlow, hhigh, ?_, fun h => absurd h hexponent, fun _ => hexact⟩
    refine Nat.pos_of_ne_zero fun hnone => ?_
    rw [hnone, Nat.zero_mul] at hexact
    omega

theorem truncated_negative {x : Float} (h : 0 < (Binary.ofFloat x).ratio.1 / (Binary.ofFloat x).ratio.2) :
    decide (truncated x < 0) = (Binary.ofFloat x).negative := by
  have heq : truncated x = if (Binary.ofFloat x).negative = true then
      -(((Binary.ofFloat x).ratio.1 / (Binary.ofFloat x).ratio.2 : Nat) : Int)
    else ((Binary.ofFloat x).ratio.1 / (Binary.ofFloat x).ratio.2 : Nat) := rfl
  by_cases hnegative : (Binary.ofFloat x).negative = true
  · rw [heq, if_pos hnegative, hnegative]
    exact decide_eq_true (by omega)
  · rw [heq, if_neg hnegative, Bool.eq_false_iff.2 hnegative]
    exact decide_eq_false (by omega)

/-- An integral double is read back from its integer; only the sign of zero is lost. -/
theorem ofInt?_truncated_of_integral {x : Float} (h : isIntegral x = true) :
    ofInt? (truncated x) = some (if x == 0 then 0 else x) := by
  unfold isIntegral at h
  rw [Bool.and_eq_true] at h
  obtain ⟨hfinite, hwhole⟩ := h
  have hwhole : (Binary.ofFloat x).ratio.1 % (Binary.ofFloat x).ratio.2 = 0 := by simpa using hwhole
  obtain ⟨hhigh, hexponent⟩ := ofFloat_bounds hfinite
  by_cases hzero : (Binary.ofFloat x).mantissa = 0
  · have hnone : truncated x = 0 := by
      have hratio : (Binary.ofFloat x).ratio.1 = 0 := by
        unfold Binary.ratio
        split <;> simp [hzero]
      unfold truncated
      simp [hratio]
    rw [(beq_zero_iff hfinite).2 hzero, if_pos rfl, hnone]
    rfl
  · rw [if_neg (fun hx => hzero ((beq_zero_iff hfinite).1 hx))]
    have hnormal := normal_of_whole hzero hwhole
    have hparts := whole_of_ratio hnormal hhigh hwhole
    obtain ⟨hleast, hbits⟩ := ofBitsWithSign_ofFloat hfinite hnormal
    rw [ofInt?, truncated_negative hparts.positive, natAbs_truncated, hparts.ofRatio? hleast hexponent, hbits]

end DeskScript.Number
