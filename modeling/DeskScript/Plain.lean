import DeskScript.Dict
import DeskScript.Number.Layout
import DeskScript.Text.Quoted

set_option autoImplicit false

/-!
# Plain data

Data as the host sees it: event payloads, command arguments, state, results. Integers and doubles are different here.
-/

namespace DeskScript

inductive Plain where
  | null
  | bool (b : Bool)
  | int (i : Int)
  | float (x : Float)
  | str (s : String)
  | list (items : List Plain)
  | dict (entries : List (String × Plain))
  deriving Inhabited

namespace Plain

def typeName : Plain → String
  | null => "NoneType" | bool _ => "bool" | int _ => "int" | float _ => "float" | str _ => "str" | list _ => "list"
  | dict _ => "dict"

def isPresent : Plain → Bool
  | null => false
  | bool b => b
  | int i => i ≠ 0
  | float x => x != 0
  | str s => !s.isEmpty
  | list items => !items.isEmpty
  | dict entries => !entries.isEmpty

def boolText (b : Bool) : String := if b then "True" else "False"

mutual

def shown : Plain → String
  | null => "None"
  | bool b => boolText b
  | int i => Number.intText i
  | float x => Number.plainText x
  | str s => Text.quoted s
  | list items => "[" ++ ", ".intercalate (shownItems items) ++ "]"
  | dict entries => "\x7b" ++ ", ".intercalate (shownEntries entries) ++ "\x7d"

def shownItems : List Plain → List String
  | [] => []
  | p :: rest => shown p :: shownItems rest

def shownEntries : List (String × Plain) → List String
  | [] => []
  | (k, p) :: rest => (Text.quoted k ++ ": " ++ shown p) :: shownEntries rest

end

def printed : Plain → String
  | str s => s
  | p => shown p

end Plain

end DeskScript
