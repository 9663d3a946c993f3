import Mathlib.Algebra.Order.Ring.Rat
import Mathlib.Tactic.Linarith
import Mathlib.Tactic.Ring
import DeskScript.Host.Time
import DeskScript.Proofs.Number.Units

set_option autoImplicit false

/-!
# Exact times

Exact times are in order, and what is left of one and the time before it make up the whole of it. A wait on an ideal clock
takes as long as it is. Main statements: `Extent.add_sub`, `Time.span_millis`, `Time.exact_le`, `Time.le_exact`.
-/

namespace DeskScript

namespace Extent

variable {a b c : Extent}

theorem finite_le_finite {p q : Rat} : finite p ≤ finite q ↔ p ≤ q := decide_eq_true_iff

theorem le_endless (a : Extent) : a ≤ endless := by cases a <;> rfl

theorem not_endless_le {q : Rat} : ¬endless ≤ finite q := Bool.false_ne_true

theorem le_refl (a : Extent) : a ≤ a := by
  cases a with
  | finite q => exact finite_le_finite.2 (Rat.le_refl (a := q))
  | endless => rfl

theorem le_antisymm (h : a ≤ b) (h' : b ≤ a) : a = b := by
  cases a with
  | endless =>
    cases b with
    | endless => rfl
    | finite q => exact absurd h not_endless_le
  | finite p =>
    cases b with
    | endless => exact absurd h' not_endless_le
    | finite q => rw [Rat.le_antisymm (finite_le_finite.1 h) (finite_le_finite.1 h')]

theorem not_lt : ¬a < b ↔ b ≤ a := Decidable.not_not

theorem add_le_add (a : Extent) (h : b ≤ c) : a.add b ≤ a.add c := by
  cases a with
  | endless => exact le_endless _
  | finite p =>
    cases c with
    | endless => exact le_endless _
    | finite r =>
      cases b with
      | endless => exact absurd h not_endless_le
      | finite q => exact finite_le_finite.2 (add_le_add_right (finite_le_finite.1 h) p)

theorem add_sub (h : a ≤ b) : a.add (b.sub a) = b := by
  cases b with
  | endless => cases a <;> rfl
  | finite q =>
    cases a with
    | endless => exact absurd h not_endless_le
    | finite p => exact congrArg finite (by ring)

theorem positive_finite (q : Rat) : (finite q).positive = finite (max 0 q) := congrArg finite (max_def 0 q).symm

theorem sub_positive (h : a ≤ b) : (b.sub a).positive = b.sub a := by
  cases b with
  | endless => cases a <;> rfl
  | finite q =>
    cases a with
    | endless => exact absurd h not_endless_le
    | finite p => exact (positive_finite _).trans (congrArg finite (max_eq_right (sub_nonneg.2 (finite_le_finite.1 h))))

theorem finite_sub_self (q : Rat) : (finite q).sub (finite q) = finite 0 := congrArg finite (by ring)

/-- The same beginning may be taken off before more is added. -/
theorem add_sub_finite (a b : Extent) (q : Rat) : (a.add b).sub (finite q) = (a.sub (finite q)).add b := by
  cases a with
  | endless => rfl
  | finite p =>
    cases b with
    | endless => rfl
    | finite r => exact congrArg finite (by ring)

/-- A double that is not below zero stands for a time that is not. -/
theorem zero_le_ofFloat {x : Float} (h : 0 ≤ x) : finite 0 ≤ ofFloat x := by
  unfold ofFloat
  split
  · rename_i hfinite
    have hle := (Number.le_iff_rational Number.zero_isFinite hfinite).1 h
    rw [Number.rational_zero] at hle
    exact finite_le_finite.2 hle
  · rfl

end Extent

namespace Time

variable {e : Extent} {ms t : Time}

theorem exact_le : exact e ≤ t ↔ e ≤ t.extent := by cases t <;> rfl

theorem exact_lt : exact e < t ↔ e < t.extent := by cases t <;> rfl

theorem le_exact : t ≤ exact e ↔ t.extent ≤ e := by cases t <;> rfl

theorem le_add_span (a : Extent) (ms : Time) : a ≤ a.add ms.span := by
  unfold span
  cases a with
  | endless => rfl
  | finite p =>
    cases ms.extent with
    | endless => rfl
    | finite q =>
      rw [Extent.positive_finite]
      have hspan : 0 ≤ max 0 q * (1 / 1000) := mul_nonneg (le_max_left 0 q) (by norm_num)
      exact Extent.finite_le_finite.2 (le_add_of_nonneg_right hspan)

/-- A wait of some time, in milliseconds, is as long as that time. -/
theorem span_millis (e : Extent) : (exact e).millis.span = e.positive := by
  cases e with
  | endless => rfl
  | finite q =>
    unfold span
    change ((Extent.finite (q * 1000)).positive.times (1 / 1000)) = _
    rw [Extent.positive_finite, Extent.positive_finite]
    refine congrArg Extent.finite ?_
    rcases le_total 0 q with hq | hq
    · rw [max_eq_right hq, max_eq_right (by linarith)]
      ring
    · rw [max_eq_left hq, max_eq_left (by linarith)]
      ring

theorem span_le (h : ms.extent ≤ t.extent) : ms.span ≤ t.span := by
  unfold span
  revert h
  cases ms.extent with
  | endless =>
    cases t.extent with
    | endless => exact fun _ => Extent.le_refl _
    | finite q => exact fun h => absurd h Extent.not_endless_le
  | finite p =>
    cases t.extent with
    | endless => exact fun _ => Extent.le_endless _
    | finite q =>
      intro h
      rw [Extent.positive_finite, Extent.positive_finite]
      have hmax : max 0 p ≤ max 0 q := max_le_max_left 0 (Extent.finite_le_finite.1 h)
      exact Extent.finite_le_finite.2 (mul_le_mul_of_nonneg_right hmax (by norm_num))

end Time

end DeskScript
