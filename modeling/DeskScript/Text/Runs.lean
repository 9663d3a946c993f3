set_option autoImplicit false

/-!
# Sets of code points as run lengths

A set of code points is written as alternating run lengths, beginning with a run outside the set:
`"65 26 6 26"` is the set of ASCII letters. The decoded form keeps the boundaries at which membership changes,
so a code point is a member exactly when an odd number of boundaries is at or below it.
-/

namespace DeskScript.Text

def numerals (text : String) : List Nat :=
  let step : List Nat × Nat → Char → List Nat × Nat := fun (done, current) c =>
    if c = ' ' then (current :: done, 0) else (done, 10 * current + (c.toNat - 48))
  let (done, current) := text.toList.foldl step ([], 0)
  (current :: done).reverse

/-- Running totals: the boundaries of a list of run lengths. -/
def boundaries (start : Nat) : List Nat → List Nat
  | [] => []
  | n :: rest => (start + n) :: boundaries (start + n) rest

/-- A set of code points, kept as the sorted points at which membership changes. -/
structure Runs where
  bounds : Array Nat

def Runs.ofText (text : String) : Runs :=
  ⟨(boundaries 0 (numerals text)).toArray⟩

/-- The number of entries of `bounds` in `[lo, hi)` that are at most `n`, plus `lo`, by halving. -/
def countAtMost (bounds : Array Nat) (n lo hi : Nat) : Nat :=
  if lo < hi then
    let mid := (lo + hi) / 2
    if bounds.getD mid 0 ≤ n then countAtMost bounds n (mid + 1) hi else countAtMost bounds n lo mid
  else lo
termination_by hi - lo

def Runs.contains (s : Runs) (n : Nat) : Bool :=
  countAtMost s.bounds n 0 s.bounds.size % 2 == 1

end DeskScript.Text
