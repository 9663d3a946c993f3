import DeskScript.Number.Binary

set_option autoImplicit false

/-!
# Shortest decimal digits

The fewest significant digits that read back as a double, and of those the nearest to it. The reals that read back as
`m · 2 ^ e` form an interval, closed when `m` is even. On the grid of `n`-digit decimals only the two neighbours of the
value can be the nearest hit, so the first `n` at which one of them lies in the interval gives the digits.
-/

namespace DeskScript.Number

/-- Significant digits of a positive number: `digits` has `count` digits and stands for `d.ddd · 10 ^ exponent`. -/
structure Digits where
  digits : Nat
  count : Nat
  exponent : Int
  deriving Repr

def ratioLe (a b c d : Nat) : Bool := a * d ≤ c * b

def powerOfTen (k : Int) : Nat × Nat := if 0 ≤ k then (Nat.pow 10 k.toNat, 1) else (1, Nat.pow 10 (-k).toNat)

/-- The exponent `k` with `10 ^ k ≤ num / den < 10 ^ (k + 1)`, corrected from an estimate. -/
def decimalExponent (num den : Nat) : Int :=
  let estimate : Int := ((num.log2 : Int) - den.log2) * 30103 / 100000
  let fits (k : Int) : Bool := let (p, q) := powerOfTen k; ratioLe p q num den
  if fits (estimate + 2) then estimate + 2
  else if fits (estimate + 1) then estimate + 1
  else if fits estimate then estimate
  else if fits (estimate - 1) then estimate - 1
  else estimate - 2

structure Interval where
  low : Nat × Nat
  high : Nat × Nat
  closed : Bool

def Interval.contains (i : Interval) (num den : Nat) : Bool :=
  if i.closed then ratioLe i.low.1 i.low.2 num den && ratioLe num den i.high.1 i.high.2
  else !ratioLe num den i.low.1 i.low.2 && !ratioLe i.high.1 i.high.2 num den

/-- The reals that read back as `m · 2 ^ e`. -/
def roundingInterval (m : Nat) (e : Int) : Interval :=
  let high := (Binary.mk false (4 * m + 2) (e - 2)).ratio
  let low :=
    if m = Nat.pow 2 52 && -1074 < e then (Binary.mk false (4 * m - 1) (e - 2)).ratio
    else (Binary.mk false (4 * m - 2) (e - 2)).ratio
  ⟨low, high, m % 2 == 0⟩

def searchDigits (interval : Interval) (num den : Nat) (k : Int) : Nat → Nat → Digits
  | 0, n => ⟨0, n, k⟩
  | more + 1, n =>
    let (p, q) := powerOfTen (k - n + 1)
    -- the value in units of the last digit
    let top := num * q
    let bottom := den * p
    let down := top / bottom
    let up := down + 1
    let hit (d : Nat) : Bool := interval.contains (d * p) q
    let rest := 2 * (top % bottom)
    let downNearer := rest < bottom || (rest == bottom && down % 2 == 0)
    let pick (d : Nat) : Digits := if d = Nat.pow 10 n then ⟨Nat.pow 10 (n - 1), n, k + 1⟩ else ⟨d, n, k⟩
    if hit down && hit up then pick (if downNearer then down else up)
    else if hit down then pick down
    else if hit up then pick up
    else searchDigits interval num den k more (n + 1)

def shortestDigits (x : Float) : Digits :=
  let b := Binary.ofFloat x
  let (num, den) := b.ratio
  searchDigits (roundingInterval b.mantissa b.exponent) num den (decimalExponent num den) 17 1

def roundedDigits (x : Float) (n : Nat) : Digits :=
  let b := Binary.ofFloat x
  let (num, den) := b.ratio
  let k := decimalExponent num den
  let (p, q) := powerOfTen (k - n + 1)
  let d := roundedQuotient (num * q) (den * p)
  if d = Nat.pow 10 n then ⟨Nat.pow 10 (n - 1), n, k + 1⟩ else ⟨d, n, k⟩

end DeskScript.Number
