import DeskScript.Builtin.Signature

set_option autoImplicit false

/-!
# Object functions

`set` and `remove` change the object they are given.
-/

namespace DeskScript

inductive ObjectFn where
  | keys | values | get | set | has | remove | merge
  deriving DecidableEq

namespace ObjectFn

def table : List (String × ObjectFn) :=
  [("keys", keys), ("values", values), ("get", get), ("set", set), ("has", has), ("remove", remove),
   ("merge", merge)]

def signature : ObjectFn → Signature
  | keys | values => .exactly 1 [.object]
  | get => .between 2 3 [.object, .text, .any]
  | set => .exactly 3 [.object, .text, .any]
  | has | remove => .exactly 2 [.object, .text]
  | merge => .atLeast 1 [.object]

def merged (h : Heap) (objects : List Value) : Dict Value :=
  objects.foldl (fun d v =>
    match v with
    | .obj id => d.insertAll (h.fields id)
    | _ => d) []

def apply (f : ObjectFn) (h : Heap) (args : List Value) : Outcome :=
  match f, args with
  | keys, [.obj id] => Outcome.array h ((h.fields id).keys.map Value.str).toArray
  | values, [.obj id] => Outcome.array h (h.fields id).values.toArray
  | get, .obj id :: key :: rest =>
    match (h.fields id).get? (h.display key) with
    | some v => Outcome.give h v
    | none => if rest.isEmpty then Outcome.give h .null else Outcome.argument h 2
  | set, [.obj id, key, v] =>
    let name := h.display key
    Outcome.argument (h.modifyFields id (·.insert name v)) 0
  | has, [.obj id, key] => Outcome.bool h ((h.fields id).contains (h.display key))
  | remove, [.obj id, key] =>
    let name := h.display key
    Outcome.argument (h.modifyFields id (·.erase name)) 0
  | merge, objects => Outcome.object h (merged h objects)
  | _, _ => Outcome.give h .null

end ObjectFn

end DeskScript
