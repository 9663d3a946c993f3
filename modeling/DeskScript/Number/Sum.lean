import DeskScript.Number.Binary

set_option autoImplicit false

/-!
# Exact sums

A sum of doubles is kept as partial sums that do not overlap, so that nothing is lost until the one rounding at the end.
-/

namespace DeskScript.Number

inductive SumFault where
  | overflow
  | opposedInfinities

/-- Adds `x` to partial sums in order of increasing size; gives the new partials, smallest first, and the leading term. -/
def addPartials (x : Float) : List Float → List Float × Float
  | [] => ([], x)
  | y :: rest =>
    let (a, b) := if x.abs < y.abs then (y, x) else (x, y)
    let high := a + b
    let low := b - (high - a)
    let (kept, last) := addPartials high rest
    (if low != 0 then low :: kept else kept, last)

structure RunningSum where
  partials : List Float := []
  special : Float := 0
  infinities : Float := 0

def RunningSum.add (s : RunningSum) (x : Float) : Except SumFault RunningSum :=
  let (kept, last) := addPartials x s.partials
  if last == 0 then .ok { s with partials := kept }
  else if last.isFinite then .ok { s with partials := kept ++ [last] }
  else if x.isFinite then .error .overflow
  else
    .ok { partials := [], special := s.special + x,
          infinities := if x.isInf then s.infinities + x else s.infinities }

/-- Adds partials from the largest down until a rounding occurs: the high part, the rounding error and the rest. -/
def collapse (high : Float) : List Float → Float × Float × List Float
  | [] => (high, 0, [])
  | y :: rest =>
    let sum := high + y
    let low := y - (sum - high)
    if low != 0 then (sum, low, rest) else collapse sum rest

/-- The rounded value of non-overlapping partials, given largest first; a half-way case looks at the sign of what is left. -/
def roundPartials : List Float → Float
  | [] => 0
  | high :: rest =>
    let (high, low, rest) := collapse high rest
    match rest with
    | next :: _ =>
      if (low < 0 && next < 0) || (0 < low && 0 < next) then
        let y := low * 2
        let x := high + y
        if y == x - high then x else high
      else high
    | [] => high

def exactSum (xs : List Float) : Except SumFault Float := do
  let s ← xs.foldlM RunningSum.add {}
  if s.special != 0 then
    if s.infinities.isNaN then .error .opposedInfinities else .ok s.special
  else .ok (roundPartials s.partials.reverse)

end DeskScript.Number
