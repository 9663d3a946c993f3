import DeskScript.Builtin.Conversion
import DeskScript.Builtin.Sequence
import DeskScript.Builtin.Sorting
import DeskScript.Number.Sum

set_option autoImplicit false

/-!
# Array functions

`push`, `pop`, `shift` and `unshift` change the array they are given; all others make new arrays.
-/

namespace DeskScript

inductive ArrayFn where
  | first | last | at_ | push | pop | shift | unshift | includes | findIndex | find | sort | sortDesc | unique
  | flatten | range | fill | sum | avg | product | filter | reject | map | splice | arrayConcat
  deriving DecidableEq

namespace ArrayFn

def table : List (String × ArrayFn) :=
  [("first", first), ("last", last), ("at", at_), ("push", push), ("pop", pop), ("shift", shift),
   ("unshift", unshift), ("includes", includes), ("findIndex", findIndex), ("find", find), ("sort", sort),
   ("sortDesc", sortDesc), ("unique", unique), ("flatten", flatten), ("range", range), ("fill", fill), ("sum", sum),
   ("avg", avg), ("product", product), ("filter", filter), ("reject", reject), ("map", map), ("splice", splice),
   ("arrayConcat", arrayConcat)]

def signature : ArrayFn → Signature
  | first | last | pop | shift | sort | sortDesc | unique | sum | avg | product => .exactly 1 [.array]
  | at_ => .exactly 2 [.array, .number]
  | push | unshift => .atLeast 1 [.array, .any]
  | includes | findIndex | find | filter | reject => .exactly 2 [.array, .any]
  | flatten => .between 1 2 [.array, .number]
  | range => .between 1 3 [.number]
  | fill => .exactly 2 [.number, .any]
  | map => .exactly 2 [.array, .string]
  | splice => .atLeast 2 [.array, .number, .number, .any]
  | arrayConcat => .atLeast 0 [.any]

def uniqueFrom (h : Heap) (kept : List Value) : List Value → List Value
  | [] => kept.reverse
  | v :: rest => if kept.any (h.equal · v) then uniqueFrom h kept rest else uniqueFrom h (v :: kept) rest

def flattened (h : Heap) : Nat → List Value → List Value
  | 0, vs => vs
  | depth + 1, vs =>
    vs.flatMap fun
      | .arr id => flattened h depth (h.items id).toList
      | v => [v]

def numbersOf (name : String) : List Value → Except Failure (List Float)
  | [] => .ok []
  | .num x :: rest => do return x :: (← numbersOf name rest)
  | v :: _ => .error (.because (.notNumbers name v.kind))

def sumOf (xs : List Float) : Except Failure Float :=
  match Number.exactSum xs with
  | .ok x => .ok x
  | .error .overflow => .error (.fault .sumOverflow)
  | .error .opposedInfinities => .error (.fault .opposedInfinities)

def rangeOf (start stop stride : Float) : Except Failure (List Float) :=
  if start.isFinite && stop.isFinite && stride.isFinite then
    let steps := (stop - start) / stride
    if steps.isFinite then
      let length := (Number.ceiled steps).toNat
      if generatedLimit < length then .error (.because .rangeTooLong)
      else .ok ((List.range length).map fun i => start + Number.ofNat i * stride)
    else .error (.fault (if steps.isNaN then .integerOfNaN else .integerOfInfinity))
  else .error (.because .rangeNotFinite)

/-- The bounds and the stride of a range; a stride of zero counts as one. -/
def rangeArguments : List Value → Float × Float × Float
  | [.num stop] => (0, stop, 1)
  | [.num start, .num stop] => (start, stop, 1)
  | .num start :: .num stop :: .num stride :: _ => (start, stop, if stride == 0 then 1 else stride)
  | _ => (0, 0, 1)

def mapOf (h : Heap) (operation : String) (items : List Value) : Except Failure (List Value) :=
  match operation with
  | "double" => do return (← numbersOf "map" items).map fun x => .num (x * 2)
  | "square" => do return (← numbersOf "map" items).map fun x => .num (x * x)
  | "string" => .ok (items.map fun v => .str (h.display v))
  | "number" => .ok (items.map fun v => .num ((numberOf? v).getD Number.notANumber))
  | "boolean" => .ok (items.map fun v => .bool (h.truthy v))
  | _ => .error (.because (.mapOperation operation))

def spliceOf (items : List Value) (start : Int) (removed : Option Int) (inserted : List Value) : List Value :=
  let a := Builtin.clampIndex start items.length
  match removed with
  | none => items.take a ++ inserted
  | some n => items.take a ++ inserted ++ items.drop (a + min n.toNat items.length)

def apply (f : ArrayFn) (h : Heap) (args : List Value) : Outcome :=
  match f, args with
  | first, [.arr id] => Outcome.give h ((h.items id).getD 0 .null)
  | last, [.arr id] => Outcome.give h (((h.items id).back?).getD .null)
  | at_, [.arr id, .num x] => do
    let i ← Builtin.intArgument "at" x
    Outcome.give h (if i < 0 then .null else (h.items id).getD i.toNat .null)
  | push, .arr id :: items => Outcome.argument (h.modifyItems id (· ++ items.toArray)) 0
  | pop, [.arr id] =>
    let v := ((h.items id).back?).getD .null
    Outcome.give (h.modifyItems id Array.pop) v
  | shift, [.arr id] =>
    let v := (h.items id).getD 0 .null
    Outcome.give (h.modifyItems id fun items => items.extract 1 items.size) v
  | unshift, .arr id :: items => Outcome.argument (h.modifyItems id (items.toArray ++ ·)) 0
  | includes, [.arr id, v] => Outcome.bool h (SequenceFn.findIndex h (h.items id).toList v 0).isSome
  | findIndex, [.arr id, v] =>
    Outcome.number h (Builtin.offsetText (SequenceFn.findIndex h (h.items id).toList v 0))
  | find, [.arr id, v] => Outcome.give h (((h.items id).toList.find? (h.equal · v)).getD .null)
  | sort, [.arr id] => Outcome.array h (sorted h (h.items id).toList).toArray
  | sortDesc, [.arr id] => Outcome.array h (sorted h (h.items id).toList.reverse).reverse.toArray
  | unique, [.arr id] => Outcome.array h (uniqueFrom h [] (h.items id).toList).toArray
  | flatten, .arr id :: rest => do
    let depth ← match rest with
      | .num d :: _ => Builtin.intArgument "flatten" d
      | _ => pure 1
    Outcome.array h (flattened h depth.toNat (h.items id).toList).toArray
  | range, args => do
    let (start, stop, stride) := rangeArguments args
    let xs ← rangeOf start stop stride
    Outcome.array h (xs.map Value.num).toArray
  | fill, [.num x, v] => do
    let n := (← Builtin.intArgument "fill" x).toNat
    if generatedLimit < n then .error (.because .fillTooLong) else Outcome.array h (Array.replicate n v)
  | sum, [.arr id] => do Outcome.number h (← sumOf (← numbersOf "sum" (h.items id).toList))
  | avg, [.arr id] => do
    let xs ← numbersOf "avg" (h.items id).toList
    if xs.isEmpty then Outcome.number h 0 else Outcome.number h ((← sumOf xs) / Number.ofNat xs.length)
  | product, [.arr id] => do
    let xs ← numbersOf "product" (h.items id).toList
    Outcome.number h (xs.foldl (· * ·) 1)
  | filter, [.arr id, v] => Outcome.array h ((h.items id).filter (h.equal · v))
  | reject, [.arr id, v] => Outcome.array h ((h.items id).filter (!h.equal · v))
  | map, [.arr id, .str operation] => do
    Outcome.array h (← mapOf h operation (h.items id).toList).toArray
  | splice, .arr id :: .num start :: rest => do
    let a ← Builtin.intArgument "splice" start
    let removed ← match rest with
      | .num n :: _ => some <$> Builtin.intArgument "splice" n
      | _ => pure none
    Outcome.array h (spliceOf (h.items id).toList a removed (rest.drop 1)).toArray
  | arrayConcat, args =>
    Outcome.array h (args.flatMap fun
      | .arr id => (h.items id).toList
      | v => [v]).toArray
  | _, _ => Outcome.give h .null

end ArrayFn

end DeskScript
