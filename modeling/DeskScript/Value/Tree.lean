import DeskScript.Plain
import DeskScript.Value.Basic
import DeskScript.Script.Fault

set_option autoImplicit false

/-!
# Values as trees

A value unfolds into a finite tree: a collection met again below itself is marked instead of being entered. The tree is
what a value looks like from outside, and plain data, JSON and displayed text are read off it.
-/

namespace DeskScript

inductive Tree where
  | null
  | bool (b : Bool)
  | num (x : Float)
  | str (s : String)
  | list (items : List Tree)
  | dict (entries : List (String × Tree))
  | circular

namespace Heap

/-- The unfolding of a value below the collections `above`, at most `fuel` collections deep. -/
def unfold (h : Heap) : Nat → List Ref → Value → Tree
  | _, _, .null => .null
  | _, _, .bool b => .bool b
  | _, _, .num x => .num x
  | _, _, .str s => .str s
  | 0, _, .arr _ => .circular
  | 0, _, .obj _ => .circular
  | fuel + 1, above, .arr id =>
    if above.contains (.arr id) then .circular
    else .list ((h.items id).toList.map (unfold h fuel (.arr id :: above)))
  | fuel + 1, above, .obj id =>
    if above.contains (.obj id) then .circular
    else .dict ((h.fields id).map fun (k, v) => (k, unfold h fuel (.obj id :: above) v))

/-- The unfolding of a value. No path enters more collections than there are. -/
def tree (h : Heap) (v : Value) : Tree := unfold h (h.size + 1) [] v

end Heap

def Plain.ofFloat (x : Float) : Plain := if Number.isIntegral x then .int (Number.truncated x) else .float x

namespace Tree

mutual

def plain : Tree → Plain
  | null | circular => .null
  | bool b => .bool b
  | num x => Plain.ofFloat x
  | str s => .str s
  | list items => .list (plainItems items)
  | dict entries => .dict (plainEntries entries)

def plainItems : List Tree → List Plain
  | [] => []
  | t :: rest => plain t :: plainItems rest

def plainEntries : List (String × Tree) → List (String × Plain)
  | [] => []
  | (k, t) :: rest => (k, plain t) :: plainEntries rest

end

end Tree

/-- A number as scripts show it: integers without a point below `10 ^ 21`. -/
def numberText (x : Float) : String :=
  if x.isNaN then "NaN"
  else if x.isInf then (if x > 0 then "Infinity" else "-Infinity")
  else if Number.isIntegral x && x.abs < 1e21 then Number.intText (Number.truncated x)
  else Number.plainText x

namespace Json

def escaped (c : Char) : List Char :=
  if c = '"' then ['\\', '"']
  else if c = '\\' then ['\\', '\\']
  else if c = '\n' then ['\\', 'n']
  else if c = '\r' then ['\\', 'r']
  else if c = '\t' then ['\\', 't']
  else if c.toNat = 8 then ['\\', 'b']
  else if c.toNat = 12 then ['\\', 'f']
  else if c.toNat < 32 then '\\' :: 'u' :: Text.hexDigits 4 c.toNat
  else [c]

def quoted (s : String) : String := String.ofList ('"' :: s.toList.flatMap escaped ++ ['"'])

def number (x : Float) : String :=
  if !x.isFinite then "null"
  else if Number.isIntegral x then Number.intText (Number.truncated x)
  else Number.plainText x

/-- How JSON is laid out: on one line, or with a line for each item, indented by a number of blanks per level. -/
abbrev Indent := Option Nat

def lineBreak : Indent → Nat → String
  | none, _ => ""
  | some n, level => "\n" ++ String.ofList (List.replicate (n * level) ' ')

def colon : Indent → String
  | none => ":"
  | some _ => ": "

def bracketed (indent : Indent) (level : Nat) (opening closing : String) (parts : List String) : String :=
  if parts.isEmpty then opening ++ closing
  else
    let separator := "," ++ lineBreak indent (level + 1)
    opening ++ lineBreak indent (level + 1) ++ separator.intercalate parts ++ lineBreak indent level ++ closing

end Json

namespace Tree

mutual

def json (indent : Json.Indent) (level : Nat) : Tree → String
  | null => "null"
  | bool b => if b then "true" else "false"
  | num x => Json.number x
  | str s => Json.quoted s
  | list items => Json.bracketed indent level "[" "]" (jsonItems indent (level + 1) items)
  | dict entries => Json.bracketed indent level "\x7b" "\x7d" (jsonEntries indent (level + 1) entries)
  | circular => "\"[Circular]\""

def jsonItems (indent : Json.Indent) (level : Nat) : List Tree → List String
  | [] => []
  | t :: rest => json indent level t :: jsonItems indent level rest

def jsonEntries (indent : Json.Indent) (level : Nat) : List (String × Tree) → List String
  | [] => []
  | (k, t) :: rest => (Json.quoted k ++ Json.colon indent ++ json indent level t) :: jsonEntries indent level rest

end

end Tree

namespace Heap

def plain (h : Heap) (v : Value) : Plain := (h.tree v).plain

def json (h : Heap) (v : Value) (indent : Json.Indent) : String := (h.tree v).json indent 0

def display (h : Heap) : Value → String
  | .null => "null"
  | .bool b => if b then "true" else "false"
  | .num x => numberText x
  | .str s => s
  | v => h.json v none

mutual

/-- The value of plain data, its collections new on the heap. An integer beyond all doubles has none. -/
def ofPlain (h : Heap) : Plain → Except Fault (Value × Heap)
  | .null => .ok (.null, h)
  | .bool b => .ok (.bool b, h)
  | .int i =>
    match Number.ofInt? i with
    | some x => .ok (.num x, h)
    | none => .error .integerTooLarge
  | .float x => .ok (.num x, h)
  | .str s => .ok (.str s, h)
  | .list items =>
    match ofPlainItems h #[] items with
    | .ok (values, h) => .ok (h.newArray values)
    | .error f => .error f
  | .dict entries =>
    match ofPlainEntries h [] entries with
    | .ok (fields, h) => .ok (h.newObject fields)
    | .error f => .error f

def ofPlainItems (h : Heap) (done : Array Value) : List Plain → Except Fault (Array Value × Heap)
  | [] => .ok (done, h)
  | p :: rest =>
    match ofPlain h p with
    | .ok (v, h) => ofPlainItems h (done.push v) rest
    | .error f => .error f

def ofPlainEntries (h : Heap) (done : Dict Value) : List (String × Plain) → Except Fault (Dict Value × Heap)
  | [] => .ok (done, h)
  | (k, p) :: rest =>
    match ofPlain h p with
    | .ok (v, h) => ofPlainEntries h (done.insert k v) rest
    | .error f => .error f

end

end Heap

end DeskScript
