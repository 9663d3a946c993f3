import DeskScript.Value.Tree
import DeskScript.Script.Error
import DeskScript.Syntax.Tree

set_option autoImplicit false

/-!
# Operators and properties

Arithmetic is for numbers; `+` also joins texts and arrays. Ordering is for two numbers or two texts. Properties are read
from objects, arrays and texts and written to objects and arrays.
-/

namespace DeskScript

/-- Remainder with the sign of the dividend, for a divisor that is not zero. -/
def floatRemainder (a b : Float) : Except Failure Float :=
  if a.isNaN || b.isNaN then .ok Number.notANumber
  else if a.isInf then .error (.fault .remainderUndefined)
  else if b.isInf then .ok a
  else .ok (Number.remainder a b)

namespace Heap

/-- The sum of two values: numbers add, a text joins with anything's text, and two arrays are joined to a new one. -/
def add (h : Heap) : Value → Value → Except Failure (Value × Heap)
  | .num a, .num b => .ok (.num (a + b), h)
  | .str a, b => .ok (.str (a ++ h.display b), h)
  | a, .str b => .ok (.str (h.display a ++ b), h)
  | .arr a, .arr b => .ok (h.newArray (h.items a ++ h.items b))
  | a, b => .error (.because (.cannotAdd a.kind b.kind))

def arithmetic (op : BinaryOp) (a b : Float) : Except Failure Float :=
  match op with
  | .minus => .ok (a - b)
  | .times => .ok (a * b)
  | .divide => if b == 0 then .error (.because .divisionByZero) else .ok (a / b)
  | .remainder => if b == 0 then .error (.because .moduloByZero) else floatRemainder a b
  | _ => .ok (a + b)

def ordered (op : BinaryOp) (a b : Value) : Except Failure Bool :=
  match a, b with
  | .num x, .num y =>
    .ok (match op with
      | .lt => decide (x < y)
      | .gt => decide (x > y)
      | .le => decide (x ≤ y)
      | _ => decide (x ≥ y))
  | .str x, .str y =>
    .ok (match op with
      | .lt => decide (x < y)
      | .gt => decide (y < x)
      | .le => !decide (y < x)
      | _ => !decide (x < y))
  | _, _ => .error (.because (.cannotCompare a.kind b.kind op.sign))

def binary (h : Heap) (op : BinaryOp) (a b : Value) : Except Failure (Value × Heap) :=
  match op with
  | .plus => h.add a b
  | .eq => .ok (.bool (h.equal a b), h)
  | .ne => .ok (.bool (!h.equal a b), h)
  | .lt | .gt | .le | .ge => (ordered op a b).map fun r => (.bool r, h)
  | .minus | .times | .divide | .remainder =>
    match a, b with
    | .num x, .num y => (arithmetic op x y).map fun r => (.num r, h)
    | _, _ => .error (.because (.operandKinds op.sign a.kind b.kind))

def unary (h : Heap) (op : UnaryOp) (v : Value) : Except Failure Value :=
  match op, v with
  | .not, v => .ok (.bool (!h.truthy v))
  | .negate, .num x => .ok (.num (-x))
  | .negate, v => .error (.because (.cannotNegate v.kind))

/-- The index a number stands for in a sequence of the given length; nothing if it lies outside. -/
def index? (key : Float) (length : Nat) : Except Failure (Option Nat) :=
  if Number.isIntegral key then
    let i := Number.truncated key
    .ok (if 0 ≤ i && i < length then some i.toNat else none)
  else .error (.because (.indexNotInteger (numberText key)))

def getProperty (h : Heap) (base key : Value) : Except Failure Value :=
  match base, key with
  | .obj id, key => .ok (((h.fields id).get? (h.display key)).getD .null)
  | .arr id, .num x => (index? x (h.items id).size).map fun
    | some i => (h.items id).getD i .null
    | none => .null
  | .str s, .num x => (index? x s.length).map fun
    | some i => ((s.toList[i]?).map fun c => .str c.toString).getD .null
    | none => .null
  | .arr id, .str "length" => .ok (Value.ofNat (h.items id).size)
  | .str s, .str "length" => .ok (Value.ofNat s.length)
  | base, key => .error (.because (.unreadableProperty (h.display key) base.kind))

/-- Writes a property in place; the index after the last element appends. -/
def setProperty (h : Heap) (base key value : Value) : Except Failure Heap :=
  match base, key with
  | .obj id, key =>
    let name := h.display key
    .ok (h.modifyFields id (·.insert name value))
  | .arr id, .num x =>
    let size := (h.items id).size
    if Number.isIntegral x && Number.truncated x == size then .ok (h.modifyItems id (·.push value))
    else
      match index? x size with
      | .error e => .error e
      | .ok none => .error (.because (.indexOutOfRange (numberText x) size))
      | .ok (some i) => .ok (h.modifyItems id (·.setIfInBounds i value))
  | .arr _, key => .error (.because (.arrayIndexKind key.kind))
  | base, key => .error (.because (.unwritableProperty (h.display key) base.kind))

end Heap

end DeskScript
