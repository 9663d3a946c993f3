import DeskScript.Number.Read
import DeskScript.Plain
import DeskScript.Text.Case

set_option autoImplicit false

/-!
# Variables given on the command line

A variable is written `name=value`. The value is a truth value, an integer, a double or a text, whichever fits first; a
text may stand in quotes.
-/

namespace DeskScript.CommandLine

/-- Whether a text begins and ends with a quote; a lone quote does both. -/
def isQuotedBy (quote : Char) (cs : List Char) : Bool := cs.head? = some quote && cs.getLast? = some quote

def valueOf (s : String) : Plain :=
  let word := Text.lower s
  if word = "true" then .bool true
  else if word = "false" then .bool false
  else
    match Number.readInt s with
    | .value i => .int i
    | _ =>
      match Number.ofText? s with
      | some x => .float x
      | none =>
        let cs := s.toList
        if isQuotedBy '"' cs || isQuotedBy '\'' cs then .str (String.ofList cs.tail.dropLast) else .str s

def param? (s : String) : Option (String × Plain) :=
  let cs := s.toList
  let name := cs.takeWhile (· ≠ '=')
  match cs.drop name.length with
  | [] => none
  | _ :: value =>
    some (String.ofList ((Text.trim name).dropWhile (· = '$')), valueOf (String.ofList (Text.trim value)))

def paramComplaint (s : String) : String := "Invalid variable format: " ++ s ++ " (expected name=value)"

end DeskScript.CommandLine
