import DeskScript.Builtin.Signature

set_option autoImplicit false

/-!
# Numeric functions
-/

namespace DeskScript

inductive NumericFn where
  | abs | round | floor | ceil | min | max | pow | sqrt
  deriving DecidableEq

namespace NumericFn

def table : List (String × NumericFn) :=
  [("abs", abs), ("round", round), ("floor", floor), ("ceil", ceil), ("min", min), ("max", max), ("pow", pow),
   ("sqrt", sqrt)]

def signature : NumericFn → Signature
  | abs | floor | ceil | sqrt => .exactly 1 [.number]
  | round => .between 1 2 [.number]
  | min | max => .atLeast 1 [.number]
  | pow => .exactly 2 [.number]

def floorOf (x : Float) : Except Failure Int :=
  if x.isNaN then .error (.fault .integerOfNaN)
  else if x.isInf then .error (.fault .integerOfInfinity)
  else .ok (Number.floored x)

def ofInt (i : Int) : Except Failure Float :=
  match Number.ofInt? i with
  | some x => .ok x
  | none => .error (.fault .integerTooLarge)

/-- `x` rounded half up to a number of decimal places, which may be negative. -/
def roundTo (x : Float) (places : Int) : Except Failure Float := do
  if 0 ≤ places then
    if 400 < places then .error (.fault .integerTooLarge)
    else
      let scale : Nat := Nat.pow 10 places.toNat
      let factor ← ofInt scale
      let n ← floorOf (x * factor + 0.5)
      return (Number.ofRatio? (n < 0) n.natAbs scale).getD 0
  else
    let factor := Float.pow 10 (← ofInt places)
    let n ← floorOf (x * factor + 0.5)
    let y ← ofInt n
    if factor == 0 then .error (.fault .quotientUndefined) else return y / factor

/-- `x` to the power `y`: not a number where there is no real power, infinite where it is too large. -/
def power (x y : Float) : Float :=
  let r := Float.pow x y
  if x.isFinite && y.isFinite && r.isInf then (if x == 0 then Number.notANumber else Number.infinity) else r

def squareRoot (x : Float) : Float := if x < 0 then Number.notANumber else x.sqrt

def numbers (args : List Value) : List Float :=
  args.filterMap fun
    | .num x => some x
    | _ => none

def extremum (better : Float → Float → Bool) (xs : List Float) : Float :=
  match xs with
  | [] => 0
  | x :: rest => rest.foldl (fun best y => if better y best then y else best) x

def toInteger (h : Heap) (x : Float) (i : Float → Int) : Outcome :=
  if x.isFinite then (ofInt (i x)).map fun y => (.value (.num y), h) else Outcome.argument h 0

def apply (f : NumericFn) (h : Heap) (args : List Value) : Outcome :=
  match f, args with
  | abs, [.num x] => Outcome.number h x.abs
  | round, .num x :: rest =>
    if x.isFinite then
      match rest with
      | .num d :: _ => do
        let places ← Builtin.intArgument "round" d
        Outcome.number h (← roundTo x places)
      | _ => do Outcome.number h (← roundTo x 0)
    else Outcome.argument h 0
  | floor, [.num x] => toInteger h x Number.floored
  | ceil, [.num x] => toInteger h x Number.ceiled
  | min, args => Outcome.number h (extremum (fun y best => y < best) (numbers args))
  | max, args => Outcome.number h (extremum (fun y best => y > best) (numbers args))
  | pow, [.num x, .num y] => Outcome.number h (power x y)
  | sqrt, [.num x] => Outcome.number h (squareRoot x)
  | _, _ => Outcome.give h .null

end NumericFn

end DeskScript
