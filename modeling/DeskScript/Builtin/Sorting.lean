import DeskScript.Value.Tree

set_option autoImplicit false

/-!
# Sorting values

Numbers come first in ascending order, then all other values by their displayed text. The sort is stable. NaN compares
with nothing, so that with it the keys are not ordered; then the elements are inserted one by one by halving, after the
ascending or descending run at the front.
-/

namespace DeskScript

inductive SortKey where
  | number (x : Float)
  | text (s : String)

namespace SortKey

def of (h : Heap) : Value → SortKey
  | .num x => .number x
  | v => .text (h.display v)

def before : SortKey → SortKey → Bool
  | number x, number y => x < y
  | number _, text _ => true
  | text _, number _ => false
  | text s, text t => decide (s < t)

def isNaN : SortKey → Bool
  | number x => x.isNaN
  | text _ => false

end SortKey

abbrev Keyed := SortKey × Value

def runLength (goesOn : Keyed → Keyed → Bool) : Keyed → List Keyed → Nat
  | _, [] => 0
  | x, y :: rest => if goesOn x y then 1 + runLength goesOn y rest else 0

/-- Where `x` goes in `done`, found by halving `[lo, hi)`: after every element it does not precede. -/
def insertionPoint (x : Keyed) (done : Array Keyed) (lo hi : Nat) : Nat :=
  if lo < hi then
    let mid := (lo + hi) / 2
    if x.1.before (done.getD mid x).1 then insertionPoint x done lo mid else insertionPoint x done (mid + 1) hi
  else lo
termination_by hi - lo

def insertByHalving (done : Array Keyed) (x : Keyed) : Array Keyed :=
  let i := insertionPoint x done 0 done.size
  done.extract 0 i ++ #[x] ++ done.extract i done.size

/-- Sorts by insertion after the run at the front; a strictly descending run is turned round first. -/
def insertionSort : List Keyed → List Keyed
  | [] => []
  | [x] => [x]
  | x :: y :: rest =>
    if y.1.before x.1 then
      let n := 1 + runLength (fun a b => b.1.before a.1) x (y :: rest)
      let all := x :: y :: rest
      ((all.drop n).foldl insertByHalving (all.take n).reverse.toArray).toList
    else
      let n := 1 + runLength (fun a b => !b.1.before a.1) x (y :: rest)
      let all := x :: y :: rest
      ((all.drop n).foldl insertByHalving (all.take n).toArray).toList

def sorted (h : Heap) (items : List Value) : List Value :=
  let keyed := items.map fun v => (SortKey.of h v, v)
  let done :=
    if keyed.any (·.1.isNaN) then insertionSort keyed
    else keyed.mergeSort fun a b => !b.1.before a.1
  done.map (·.2)

end DeskScript
