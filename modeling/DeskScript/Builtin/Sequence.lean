import DeskScript.Builtin.Signature
import DeskScript.Text.Search

set_option autoImplicit false

/-!
# Functions of texts and arrays alike
-/

namespace DeskScript

inductive SequenceFn where
  | length | count | slice | indexOf | lastIndexOf | contains | reverse
  deriving DecidableEq

namespace SequenceFn

def table : List (String × SequenceFn) :=
  [("length", length), ("count", count), ("slice", slice), ("indexOf", indexOf), ("lastIndexOf", lastIndexOf),
   ("contains", contains), ("reverse", reverse)]

def signature : SequenceFn → Signature
  | length | count => .exactly 1 [.collection]
  | slice => .between 2 3 [.sequence, .number, .number]
  | indexOf | lastIndexOf => .between 2 3 [.sequence, .any, .number]
  | contains => .exactly 2 [.sequence, .any]
  | reverse => .exactly 1 [.sequence]

def findIndex (h : Heap) (items : List Value) (needle : Value) (start : Nat) : Option Nat :=
  ((items.drop start).findIdx? (h.equal · needle)).map (· + start)

def findLastIndex (h : Heap) (items : List Value) (needle : Value) (stop : Nat) : Option Nat :=
  let front := items.take stop
  (front.reverse.findIdx? (h.equal · needle)).map fun i => front.length - 1 - i

def between {α : Type} (xs : List α) (a b : Nat) : List α := (xs.drop a).take (b - a)

def intOption (name : String) (rest : List Value) : Except Failure (Option Int) :=
  match rest with
  | .num x :: _ => some <$> Builtin.intArgument name x
  | _ => .ok none

def apply (f : SequenceFn) (h : Heap) (args : List Value) : Outcome :=
  match f, args with
  | length, [v] | count, [v] => Outcome.number h (Number.ofNat (h.length v))
  | slice, v :: .num start :: rest => do
    let a ← Builtin.intArgument "slice" start
    let stop ← intOption "slice" rest
    let n := h.length v
    let low := Builtin.clampIndex a n
    let high := match stop with
      | some b => Builtin.clampIndex b n
      | none => n
    match v with
    | .arr id => Outcome.array h (between (h.items id).toList low high).toArray
    | .str s => Outcome.chars h (between s.toList low high)
    | _ => Outcome.give h .null
  | indexOf, v :: needle :: rest => do
    let start := ((← intOption "indexOf" rest).getD 0).toNat
    match v with
    | .arr id => Outcome.number h (Builtin.offsetText (findIndex h (h.items id).toList needle start))
    | .str s => Outcome.number h (Builtin.offsetText (Text.findFrom (h.display needle).toList s.toList start))
    | _ => Outcome.give h .null
  | lastIndexOf, v :: needle :: rest => do
    let start ← intOption "lastIndexOf" rest
    match v with
    | .arr id =>
      let stop := match start with
        | some n => (n + 1).toNat
        | none => h.length v
      Outcome.number h (Builtin.offsetText (findLastIndex h (h.items id).toList needle stop))
    | .str s =>
      let text := (h.display needle).toList
      let stop := match start with
        | some n => n.toNat + text.length
        | none => s.length
      Outcome.number h (Builtin.offsetText (Text.findLast text s.toList stop))
    | _ => Outcome.give h .null
  | contains, [.arr id, needle] => Outcome.bool h (findIndex h (h.items id).toList needle 0).isSome
  | contains, [.str s, needle] => Outcome.bool h (Text.occurs (h.display needle).toList s.toList)
  | reverse, [.arr id] => Outcome.array h (h.items id).reverse
  | reverse, [.str s] => Outcome.chars h s.toList.reverse
  | _, _ => Outcome.give h .null

end SequenceFn

end DeskScript
