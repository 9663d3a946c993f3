import DeskScript.Proofs.Number.Units

set_option autoImplicit false

/-!
# The order of all doubles but NaN

Comparison of doubles is no linear order, since NaN compares with nothing and the two zeros with each other. The other
doubles stand in a row: finite ones at what they stand for and the infinite ones outside of all these. Main statements:
`lt_iff_standing`, `le_iff_standing`.
-/

namespace DeskScript.Number

open Float.Model Float.Model.UnpackedFloat

variable {x y : Float}

def outside : Nat := Nat.pow 2 2098

theorem outside_pos : 0 < outside := by decide +kernel

theorem units_within (hx : x.isFinite = true) : -outside < units x ∧ units x < outside := by
  obtain ⟨top, htop⟩ : ∃ top, top = 2045 := ⟨_, rfl⟩
  obtain ⟨hmantissa, hexponent⟩ := ofFloat_bounds hx
  have hmagnitude : magnitude (Binary.ofFloat x) < outside := by
    unfold magnitude outside
    rw [show 2098 = 53 + top by omega]
    calc (Binary.ofFloat x).mantissa * 2 ^ ((Binary.ofFloat x).exponent + 1074).toNat
        < 2 ^ 53 * 2 ^ ((Binary.ofFloat x).exponent + 1074).toNat :=
          Nat.mul_lt_mul_of_pos_right hmantissa (Nat.pow_pos (by decide))
      _ ≤ 2 ^ 53 * 2 ^ top := Nat.mul_le_mul_left _ (Nat.pow_le_pow_right (by decide) (by omega))
      _ = Nat.pow 2 (53 + top) := (Nat.pow_add 2 53 top).symm
  unfold units
  generalize outside = limit at *
  split <;> omega

/-- Where a double that is not NaN stands among the others. -/
def standing (x : Float) : Int :=
  match x.toModel.unpack with
  | .infinity .negative => -outside
  | .infinity .positive => outside
  | _ => units x

inductive Stood (x : Float) : UnpackedFloat → Int → Prop
  | lowest : Stood x (.infinity .negative) (-outside)
  | highest : Stood x (.infinity .positive) outside
  | finite {u : UnpackedFloat} (hx : x.isFinite = true) (hu : u.isFinite = true) : Stood x u (units x)

theorem stood (hx : x.isNaN = false) : Stood x x.toModel.unpack (standing x) := by
  unfold standing
  change x.toModel.unpack.isNaN = false at hx
  have hfinite (hu : x.toModel.unpack.isFinite = true) : x.isFinite = true := hu
  generalize x.toModel.unpack = u at hx hfinite ⊢
  cases u with
  | notANumber => cases hx
  | infinity sign =>
    cases sign with
    | negative => exact .lowest
    | positive => exact .highest
  | zero | finite => exact .finite (hfinite rfl) rfl

theorem compare_ends {u : UnpackedFloat} (hu : u.isFinite = true) :
    (UnpackedFloat.infinity .negative).compare u = some .lt ∧ (UnpackedFloat.infinity .positive).compare u = some .gt ∧
      u.compare (.infinity .negative) = some .gt ∧ u.compare (.infinity .positive) = some .lt := by
  cases u with
  | notANumber | infinity => cases hu
  | zero | finite => exact ⟨rfl, rfl, rfl, rfl⟩

theorem compare_standing (hx : x.isNaN = false) (hy : y.isNaN = false) :
    x.toModel.unpack.compare y.toModel.unpack = some (compare (standing x) (standing y)) := by
  have hsx := stood hx
  have hsy := stood hy
  have hunits := compare_units (x := x) (y := y)
  have hends : -(outside : Int) < outside := by
    have hpos := outside_pos
    omega
  generalize x.toModel.unpack = u at hsx hunits ⊢
  generalize y.toModel.unpack = v at hsy hunits ⊢
  generalize standing x = i at hsx ⊢
  generalize standing y = j at hsy ⊢
  cases hsx with
  | lowest =>
    cases hsy with
    | lowest => exact congrArg some (Int.compare_eq_eq.2 rfl).symm
    | highest => exact congrArg some (Int.compare_eq_lt.2 hends).symm
    | finite hy hv => rw [(compare_ends hv).1, Int.compare_eq_lt.2 (units_within hy).1]
  | highest =>
    cases hsy with
    | lowest => exact congrArg some (Int.compare_eq_gt.2 hends).symm
    | highest => exact congrArg some (Int.compare_eq_eq.2 rfl).symm
    | finite hy hv => rw [(compare_ends hv).2.1, Int.compare_eq_gt.2 (units_within hy).2]
  | finite hx hu =>
    cases hsy with
    | lowest => rw [(compare_ends hu).2.2.1, Int.compare_eq_gt.2 (units_within hx).1]
    | highest => rw [(compare_ends hu).2.2.2, Int.compare_eq_lt.2 (units_within hx).2]
    | finite hy hv => rw [hunits hx hy]

theorem lt_iff_standing (hx : x.isNaN = false) (hy : y.isNaN = false) : x < y ↔ standing x < standing y := by
  rw [lt_iff, compare_standing hx hy, Option.some.injEq, Int.compare_eq_lt]

theorem le_iff_standing (hx : x.isNaN = false) (hy : y.isNaN = false) : x ≤ y ↔ standing x ≤ standing y := by
  rw [le_iff, compare_standing hx hy, Option.any_some, Ordering.isLE_iff_ne_gt, ← Int.not_lt]
  exact not_congr Int.compare_eq_gt

end DeskScript.Number
