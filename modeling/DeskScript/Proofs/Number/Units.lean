import Mathlib.Algebra.Group.Nat.Defs
import Mathlib.Algebra.Order.Field.Basic
import Mathlib.Algebra.Order.Ring.Rat
import Mathlib.Data.Rat.Cast.Order
import Mathlib.Tactic.FieldSimp
import DeskScript.Proofs.Number.Order

set_option autoImplicit false

/-!
# What doubles stand for

Every finite double is a multiple of the least one above zero, and finite doubles are compared as their multiples are,
and as the fractions that they stand for. Main statements: `compare_units`, `le_iff_units`, `le_iff_rational`.
-/

namespace DeskScript.Number

open Float.Model Float.Model.UnpackedFloat

variable {x y : Float}

def magnitude (b : Binary) : Nat := b.mantissa * 2 ^ (b.exponent + 1074).toNat

/-- What a finite double stands for, in units of `2 ^ -1074`, the least double above zero. -/
def units (x : Float) : Int :=
  if (Binary.ofFloat x).negative then -(magnitude (Binary.ofFloat x) : Int) else magnitude (Binary.ofFloat x)

theorem least_exponent (x : Float) : -1074 ≤ (Binary.ofFloat x).exponent := by
  rw [ofFloat_eq]
  split
  · exact Int.le_refl _
  · dsimp only
    omega

/-- A double with a greater exponent has a greater magnitude, since its mantissa has all its bits. -/
theorem magnitude_lt (hx : x.isFinite = true) (h : (Binary.ofFloat x).exponent < (Binary.ofFloat y).exponent) :
    magnitude (Binary.ofFloat x) < magnitude (Binary.ofFloat y) := by
  obtain ⟨hhigh, -⟩ := ofFloat_bounds hx
  have hleast := least_exponent x
  have hnormal := normal_or_least y
  unfold magnitude
  generalize Binary.ofFloat x = b at *
  generalize Binary.ofFloat y = c at *
  have hlow : 4503599627370496 ≤ c.mantissa := by omega
  obtain ⟨j, hj⟩ : ∃ j, (c.exponent + 1074).toNat = (b.exponent + 1074).toNat + 1 + j :=
    ⟨(c.exponent + 1074).toNat - ((b.exponent + 1074).toNat + 1), by omega⟩
  calc b.mantissa * 2 ^ (b.exponent + 1074).toNat
      < 2 ^ 53 * 2 ^ (b.exponent + 1074).toNat := Nat.mul_lt_mul_of_pos_right hhigh (Nat.pow_pos (by decide))
    _ = 2 ^ 52 * 2 ^ ((b.exponent + 1074).toNat + 1) := by
      rw [← Nat.pow_add, ← Nat.pow_add]
      exact congrArg (2 ^ ·) (by omega)
    _ ≤ c.mantissa * 2 ^ ((b.exponent + 1074).toNat + 1) := Nat.mul_le_mul_right _ hlow
    _ ≤ c.mantissa * 2 ^ (c.exponent + 1074).toNat := by
      rw [hj, Nat.pow_add 2 _ j]
      exact Nat.mul_le_mul_left _ (Nat.le_mul_of_pos_right _ (Nat.pow_pos (by decide)))

/-- Mantissas decide where the exponents are the same. -/
theorem compare_magnitude (hx : x.isFinite = true) (hy : y.isFinite = true) :
    (compare (Binary.ofFloat x).exponent (Binary.ofFloat y).exponent).then
        (compare (Binary.ofFloat x).mantissa (Binary.ofFloat y).mantissa) =
      compare (magnitude (Binary.ofFloat x)) (magnitude (Binary.ofFloat y)) := by
  rcases Int.lt_trichotomy (Binary.ofFloat x).exponent (Binary.ofFloat y).exponent with hless | hsame | hgreater
  · rw [Int.compare_eq_lt.2 hless, Nat.compare_eq_lt.2 (magnitude_lt hx hless)]
    rfl
  · rw [Int.compare_eq_eq.2 hsame]
    have hpos : 0 < 2 ^ ((Binary.ofFloat y).exponent + 1074).toNat := Nat.pow_pos (by decide)
    unfold magnitude
    rw [hsame]
    change compare _ _ = _
    rcases Nat.lt_trichotomy (Binary.ofFloat x).mantissa (Binary.ofFloat y).mantissa with hlt | heq | hgt
    · rw [Nat.compare_eq_lt.2 hlt, Nat.compare_eq_lt.2 (Nat.mul_lt_mul_of_pos_right hlt hpos)]
    · rw [heq, Nat.compare_eq_eq.2 rfl, Nat.compare_eq_eq.2 rfl]
    · rw [Nat.compare_eq_gt.2 hgt, Nat.compare_eq_gt.2 (Nat.mul_lt_mul_of_pos_right hgt hpos)]
  · rw [Int.compare_eq_gt.2 hgreater, Nat.compare_eq_gt.2 (magnitude_lt hy hgreater)]
    rfl

theorem compare_natCast (m n : Nat) : compare (m : Int) n = compare m n := by
  simp only [Int.compare_eq_ite_lt, Nat.compare_eq_ite_lt, Int.ofNat_lt]

theorem compare_neg_natCast (m n : Nat) : compare (-(m : Int)) (-n) = (compare m n).swap := by
  rw [Nat.compare_swap, Int.compare_eq_ite_lt, Nat.compare_eq_ite_lt]
  simp only [Int.neg_lt_neg_iff, Int.ofNat_lt]

theorem magnitude_pos {b : Binary} (h : 0 < b.mantissa) : 0 < magnitude b := Nat.mul_pos h (Nat.pow_pos (by decide))

inductive Sized (x : Float) : UnpackedFloat → Int → Prop
  | zero (sign : Sign) : Sized x (.zero sign) 0
  | positive (hm : 0 < (Binary.ofFloat x).mantissa) :
      Sized x (.finite .positive (Binary.ofFloat x).mantissa (Binary.ofFloat x).exponent hm) (magnitude (Binary.ofFloat x))
  | negative (hm : 0 < (Binary.ofFloat x).mantissa) :
      Sized x (.finite .negative (Binary.ofFloat x).mantissa (Binary.ofFloat x).exponent hm) (-(magnitude (Binary.ofFloat x) : Int))

theorem sized (hx : x.isFinite = true) : Sized x x.toModel.unpack (units x) := by
  unfold units
  rcases unpack_cases (field_of_isFinite hx) with ⟨sign, hunpack, hmantissa⟩ | ⟨hm, hunpack⟩
  · have hzero : magnitude (Binary.ofFloat x) = 0 := by rw [magnitude, hmantissa, Nat.zero_mul]
    rw [hunpack, hzero]
    split <;> exact .zero sign
  · rw [hunpack]
    cases (Binary.ofFloat x).negative with
    | true => exact .negative hm
    | false => exact .positive hm

theorem compare_units (hx : x.isFinite = true) (hy : y.isFinite = true) :
    x.toModel.unpack.compare y.toModel.unpack = some (compare (units x) (units y)) := by
  have hmagnitude := compare_magnitude hx hy
  have hsx := sized hx
  have hsy := sized hy
  generalize x.toModel.unpack = u at hsx ⊢
  generalize y.toModel.unpack = v at hsy ⊢
  generalize units x = i at hsx ⊢
  generalize units y = j at hsy ⊢
  cases hsx with
  | zero sign =>
    cases hsy with
    | zero sign' => rfl
    | positive hm =>
      have hpos := magnitude_pos hm
      rw [Int.compare_eq_lt.2 (by omega)]
      rfl
    | negative hm =>
      have hpos := magnitude_pos hm
      rw [Int.compare_eq_gt.2 (by omega)]
      rfl
  | positive hm =>
    have hpos := magnitude_pos hm
    cases hsy with
    | zero sign' =>
      rw [Int.compare_eq_gt.2 (by omega)]
      rfl
    | positive hm' =>
      change some (Ordering.then _ _) = _
      rw [hmagnitude]
      exact congrArg some (compare_natCast _ _).symm
    | negative hm' =>
      rw [Int.compare_eq_gt.2 (by omega)]
      rfl
  | negative hm =>
    have hpos := magnitude_pos hm
    cases hsy with
    | zero sign' =>
      rw [Int.compare_eq_lt.2 (by omega)]
      rfl
    | positive hm' =>
      rw [Int.compare_eq_lt.2 (by omega)]
      rfl
    | negative hm' =>
      change some (Ordering.swap (Ordering.then _ _)) = _
      rw [hmagnitude]
      exact congrArg some (compare_neg_natCast _ _).symm

theorem le_iff_units (hx : x.isFinite = true) (hy : y.isFinite = true) : x ≤ y ↔ units x ≤ units y := by
  rw [le_iff, compare_units hx hy, Option.any_some, Int.isLE_compare]

theorem beq_iff_units (hx : x.isFinite = true) (hy : y.isFinite = true) : (x == y) = true ↔ units x = units y := by
  change (x.toModel.unpack.compare y.toModel.unpack == some .eq) = true ↔ _
  rw [compare_units hx hy, beq_iff_eq, Option.some.injEq, Int.compare_eq_eq]

theorem le_of_lt (h : x < y) : x ≤ y := by
  rw [lt_iff] at h
  rw [le_iff, h]
  rfl

def Stands (x : Float) (n : Int) : Prop := x.isFinite = true ∧ units x = n

theorem units_zero : units 0 = 0 := by decide

theorem zero_isFinite : (0 : Float).isFinite = true := by decide

def unitsPerOne : Nat := Nat.pow 2 1074

theorem unitsPerOne_pos : 0 < unitsPerOne := by decide +kernel

theorem unitsPerOne_eq {k l : Nat} (h : k + l = 1074) : unitsPerOne = Nat.pow 2 k * Nat.pow 2 l := by
  unfold unitsPerOne
  rw [← h]
  exact Nat.pow_add 2 k l

theorem pow_add_unitsPerOne {k l : Nat} (h : l = k + 1074) : Nat.pow 2 l = Nat.pow 2 k * unitsPerOne := by
  obtain ⟨n, hn⟩ : ∃ n, n = 1074 := ⟨_, rfl⟩
  unfold unitsPerOne
  rw [h, ← hn]
  exact Nat.pow_add 2 k n

/-- The ratio of a double, multiplied by the number of units in one, is its magnitude. -/
theorem magnitude_ratio {b : Binary} (h : -1074 ≤ b.exponent) :
    magnitude b * b.ratio.2 = b.ratio.1 * unitsPerOne := by
  unfold magnitude Binary.ratio
  split
  · rw [Nat.mul_one, Nat.mul_assoc]
    exact congrArg (b.mantissa * ·) (pow_add_unitsPerOne (by omega))
  · rw [Nat.mul_assoc]
    exact congrArg (b.mantissa * ·) (unitsPerOne_eq (by omega)).symm

theorem rational_eq (x : Float) : rational x = (units x : Rat) / unitsPerOne := by
  have hratio := congrArg (Nat.cast : Nat → Rat) (magnitude_ratio (least_exponent x))
  have hden : ((Binary.ofFloat x).ratio.2 : Rat) ≠ 0 := Nat.cast_ne_zero.2 (Nat.ne_of_gt (Binary.ratio_pos _))
  have hone : (unitsPerOne : Rat) ≠ 0 := Nat.cast_ne_zero.2 (Nat.ne_of_gt unitsPerOne_pos)
  rw [Nat.cast_mul, Nat.cast_mul] at hratio
  unfold rational units
  dsimp only
  rw [Rat.mkRat_eq_div, div_eq_div_iff hden hone]
  split
  · push_cast
    rw [neg_mul, neg_mul, hratio]
  · push_cast
    exact hratio.symm

theorem le_iff_rational (hx : x.isFinite = true) (hy : y.isFinite = true) : x ≤ y ↔ rational x ≤ rational y := by
  have hone : (0 : Rat) < unitsPerOne := Nat.cast_pos.2 unitsPerOne_pos
  rw [le_iff_units hx hy, rational_eq, rational_eq, div_le_div_iff_of_pos_right hone, Int.cast_le]

theorem rational_zero : rational 0 = 0 := by
  rw [rational_eq, units_zero, Int.cast_zero, zero_div]

end DeskScript.Number
