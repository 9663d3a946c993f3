import DeskScript.Value.Operator

set_option autoImplicit false

/-!
# Contracts of built-in functions

A signature says how many arguments a function takes and of which kinds. Arguments are checked against it before a
function runs, so that a function sees only arguments of the right kinds.
-/

namespace DeskScript

inductive ArgKind where
  | any | number | string | text | array | object | sequence | collection
  deriving DecidableEq

namespace ArgKind

def name : ArgKind → String
  | any => "any" | number => "number" | string => "string" | text => "text" | array => "array" | object => "object"
  | sequence => "sequence" | collection => "collection"

def admits : ArgKind → Kind → Bool
  | any, _ | text, _ => true
  | number, k => k == .number
  | string, k => k == .string
  | array, k => k == .array
  | object, k => k == .object
  | sequence, k => k == .array || k == .string
  | collection, k => k == .array || k == .object || k == .string

end ArgKind

/-- Number and kinds of arguments; without `most` there is no upper bound, and the last kind repeats. -/
structure Signature where
  least : Nat
  most : Option Nat
  kinds : List ArgKind
  needsHost : Bool := false

namespace Signature

def exactly (n : Nat) (kinds : List ArgKind) : Signature := { least := n, most := some n, kinds }

def between (least most : Nat) (kinds : List ArgKind) : Signature := { least, most := some most, kinds }

def atLeast (least : Nat) (kinds : List ArgKind) : Signature := { least, most := none, kinds }

def kindAt (s : Signature) (i : Nat) : ArgKind := s.kinds.getD (min i (s.kinds.length - 1)) .any

def arityText (s : Signature) : String :=
  match s.most with
  | none => s!"at least {s.least}"
  | some most => if s.least = most then toString most else s!"{s.least} to {most}"

def admitsCount (s : Signature) (n : Nat) : Bool :=
  decide (s.least ≤ n) &&
    match s.most with
    | none => true
    | some most => decide (n ≤ most)

def misfit? (s : Signature) (i : Nat) : List Value → Option (Nat × ArgKind × Kind)
  | [] => none
  | v :: rest => if (s.kindAt i).admits v.kind then misfit? s (i + 1) rest else some (i, s.kindAt i, v.kind)

def complaint? (s : Signature) (name : String) (args : List Value) : Option Cause :=
  if s.admitsCount args.length then
    (s.misfit? 0 args).map fun (i, wanted, kind) => .argumentKind name (i + 1) wanted.name kind
  else some (.arity name s.arityText args.length)

end Signature

/-- The answer of a function: a value, or one of its arguments itself. -/
inductive Answer where
  | value (v : Value)
  | argument (i : Nat)

def Answer.resolve (a : Answer) (args : List Value) : Value :=
  match a with
  | value v => v
  | argument i => args.getD i .null

abbrev Outcome := Except Failure (Answer × Heap)

namespace Outcome

def give (h : Heap) (v : Value) : Outcome := .ok (.value v, h)

def number (h : Heap) (x : Float) : Outcome := give h (.num x)

def text (h : Heap) (s : String) : Outcome := give h (.str s)

def chars (h : Heap) (cs : List Char) : Outcome := give h (.str (String.ofList cs))

def bool (h : Heap) (b : Bool) : Outcome := give h (.bool b)

def array (h : Heap) (items : Array Value) : Outcome :=
  let (v, h) := h.newArray items
  give h v

def object (h : Heap) (fields : Dict Value) : Outcome :=
  let (v, h) := h.newObject fields
  give h v

def argument (h : Heap) (i : Nat) : Outcome := .ok (.argument i, h)

end Outcome

namespace Builtin

def indexLimit : Int := Nat.pow 2 63 - 1

def intArgument (name : String) (x : Float) : Except Failure Int :=
  if x.isFinite then .ok (Number.truncated x) else .error (.because (.notFinite name (numberText x)))

/-- An offset or an index as text functions report it; minus one for none. -/
def offsetText (i : Option Nat) : Float :=
  match i with
  | some n => Number.ofNat n
  | none => -1

/-- The position an index of either sign stands for in a sequence: from the end if negative, never outside. -/
def clampIndex (i : Int) (length : Nat) : Nat :=
  if i < 0 then (i + length).toNat else min i.toNat length

end Builtin

end DeskScript
