import DeskScript.Dict
import DeskScript.Number.Binary
import DeskScript.Value.Kind

set_option autoImplicit false

/-!
# Values and the heap

A value is a constant or refers to a collection on the heap. Arrays and objects are shared: every value that refers to a
collection sees what is written to it. Collections are never removed, and a new one gets a number of its own.
-/

namespace DeskScript

inductive Value where
  | null
  | bool (b : Bool)
  | num (x : Float)
  | str (s : String)
  | arr (id : Nat)
  | obj (id : Nat)
  deriving Inhabited

inductive Ref where
  | arr (id : Nat)
  | obj (id : Nat)
  deriving DecidableEq

structure Heap where
  arrays : Array (Array Value) := #[]
  objects : Array (Dict Value) := #[]
  deriving Inhabited

namespace Value

def kind : Value → Kind
  | null => .null | bool _ => .boolean | num _ => .number | str _ => .string | arr _ => .array | obj _ => .object

def isIntegral : Value → Bool
  | num x => Number.isIntegral x
  | _ => false

def ofNat (n : Nat) : Value := .num (Number.ofNat n)

end Value

namespace Heap

def items (h : Heap) (id : Nat) : Array Value := h.arrays.getD id #[]

def fields (h : Heap) (id : Nat) : Dict Value := h.objects.getD id []

def newArray (h : Heap) (items : Array Value) : Value × Heap :=
  (.arr h.arrays.size, { h with arrays := h.arrays.push items })

def newObject (h : Heap) (fields : Dict Value) : Value × Heap :=
  (.obj h.objects.size, { h with objects := h.objects.push fields })

def modifyItems (h : Heap) (id : Nat) (f : Array Value → Array Value) : Heap :=
  { h with arrays := h.arrays.modify id f }

def modifyFields (h : Heap) (id : Nat) (f : Dict Value → Dict Value) : Heap :=
  { h with objects := h.objects.modify id f }

def size (h : Heap) : Nat := h.arrays.size + h.objects.size

theorem items_newArray (h : Heap) (items : Array Value) (id : Nat) (old : id < h.arrays.size) :
    (h.newArray items).2.items id = h.items id := by
  simp [newArray, Heap.items, Array.getD_eq_getD_getElem?, Array.getElem?_push, Nat.ne_of_lt old]

theorem items_newArray_self (h : Heap) (items : Array Value) :
    (h.newArray items).2.items h.arrays.size = items := by
  simp [newArray, Heap.items, Array.getD_eq_getD_getElem?]

theorem items_newObject (h : Heap) (fields : Dict Value) (id : Nat) :
    (h.newObject fields).2.items id = h.items id := rfl

theorem fields_newArray (h : Heap) (items : Array Value) (id : Nat) :
    (h.newArray items).2.fields id = h.fields id := rfl

theorem fields_newObject (h : Heap) (fields : Dict Value) (id : Nat) (old : id < h.objects.size) :
    (h.newObject fields).2.fields id = h.fields id := by
  simp [newObject, Heap.fields, Array.getD_eq_getD_getElem?, Array.getElem?_push, Nat.ne_of_lt old]

theorem fields_newObject_self (h : Heap) (fields : Dict Value) :
    (h.newObject fields).2.fields h.objects.size = fields := by
  simp [newObject, Heap.fields, Array.getD_eq_getD_getElem?]

/-- The number of elements, entries or characters of a value; other values have none. -/
def length (h : Heap) : Value → Nat
  | .str s => s.length
  | .arr id => (h.items id).size
  | .obj id => (h.fields id).length
  | _ => 0

def truthy (h : Heap) : Value → Bool
  | .null => false
  | .bool b => b
  | .num x => x != 0 && !x.isNaN
  | .str s => !s.isEmpty
  | .arr id => !(h.items id).isEmpty
  | .obj id => !(h.fields id).isEmpty

/-- Equality of values as a script sees it, looking at most `fuel` levels deep. The same collection is equal to itself;
objects are compared by key, whatever their order. -/
def equalWithin (h : Heap) : Nat → Value → Value → Bool
  | _, .null, .null => true
  | _, .bool a, .bool b => a == b
  | _, .num a, .num b => a == b
  | _, .str a, .str b => a == b
  | fuel, .arr a, .arr b =>
    if a = b then true
    else
      match fuel with
      | 0 => false
      | fuel + 1 =>
        let xs := (h.items a).toList
        let ys := (h.items b).toList
        xs.length == ys.length && (xs.zip ys).all fun (x, y) => equalWithin h fuel x y
  | fuel, .obj a, .obj b =>
    if a = b then true
    else
      match fuel with
      | 0 => false
      | fuel + 1 =>
        let xs := h.fields a
        let ys := h.fields b
        xs.length == ys.length &&
          xs.all fun (k, x) =>
            match ys.get? k with
            | some y => equalWithin h fuel x y
            | none => false
  | _, _, _ => false

/-- Equality of values. A path through collections without a cycle visits each at most once. -/
def equal (h : Heap) (a b : Value) : Bool := equalWithin h (h.size + 1) a b

end Heap

end DeskScript
