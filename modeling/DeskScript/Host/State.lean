import DeskScript.Number.Read
import DeskScript.Plain
import DeskScript.Script.Fault

set_option autoImplicit false

/-!
# Shared state

State is a tree of plain data addressed by paths such as `settings.theme`. Reading follows mappings by key and lists by
index; writing makes mappings on the way, replacing whatever else stands there.
-/

namespace DeskScript

structure State where
  data : Dict Plain := []

namespace State

def components (path : String) : List String := Text.splitAtChar '.' path

def isIndex (key : String) : Bool := !key.isEmpty && key.toList.all Text.isDigit

def child (node : Plain) (key : String) : Except Fault Plain :=
  match node with
  | .dict entries => .ok ((Dict.get? entries key).getD .null)
  | .list items =>
    if isIndex key then
      match Number.readInt key with
      | .value i => .ok (items.getD i.toNat .null)
      | .malformed => .error (.notAnInteger key)
      | .tooLong n => .error (.tooManyDigits n)
    else .ok .null
  | _ => .ok .null

def walk (node : Plain) : List String → Except Fault Plain
  | [] => .ok node
  | key :: rest => do walk (← child node key) rest

def get (s : State) (path : String) : Except Fault Plain := walk (.dict s.data) (components path)

def put (entries : Dict Plain) (value : Plain) : List String → Dict Plain
  | [] => entries
  | [key] => entries.insert key value
  | key :: rest =>
    let below : Dict Plain := match entries.get? key with
      | some (.dict inner) => inner
      | _ => []
    entries.insert key (.dict (put below value rest))

def set (s : State) (path : String) (value : Plain) : State := ⟨put s.data value (components path)⟩

end State

end DeskScript
