import DeskScript.Text.Class

set_option autoImplicit false

/-!
# Searching, splitting and trimming

Texts are lists of code points. Searches give the offset of an occurrence; splitting takes occurrences of the
separator from the left without overlap.
-/

namespace DeskScript.Text

def findAt (needle : List Char) (i : Nat) (hay : List Char) : Option Nat :=
  if needle.isPrefixOf hay then some i
  else
    match hay with
    | [] => none
    | _ :: rest => findAt needle (i + 1) rest

/-- The least offset at or after `start` at which `needle` occurs; a start beyond the end finds nothing. -/
def findFrom (needle hay : List Char) (start : Nat) : Option Nat :=
  if start ≤ hay.length then findAt needle start (hay.drop start) else none

/-- The greatest offset at which `needle` occurs, given the best one seen so far. -/
def findLastAt (needle : List Char) (best : Option Nat) (i : Nat) (hay : List Char) : Option Nat :=
  let best := if needle.isPrefixOf hay then some i else best
  match hay with
  | [] => best
  | _ :: rest => findLastAt needle best (i + 1) rest

def findLast (needle hay : List Char) (stop : Nat) : Option Nat :=
  findLastAt needle none 0 (hay.take stop)

def occurs (needle hay : List Char) : Bool := (findFrom needle hay 0).isSome

/-- Splits at each occurrence of a non-empty separator. `skip` characters of a separator are still to be passed over,
`part` holds the current part and `parts` the finished ones, both reversed. -/
def splitAux (sep : List Char) : Nat → List Char → List (List Char) → List Char → List (List Char)
  | _, part, parts, [] => (part.reverse :: parts).reverse
  | skip + 1, part, parts, _ :: rest => splitAux sep skip part parts rest
  | 0, part, parts, c :: rest =>
    if sep.isPrefixOf (c :: rest) then splitAux sep (sep.length - 1) [] (part.reverse :: parts) rest
    else splitAux sep 0 (c :: part) parts rest

/-- The parts between occurrences of a non-empty separator; without occurrence, the text itself. -/
def splitBy (sep text : List Char) : List (List Char) := splitAux sep 0 [] [] text

def splitAtChar (sep : Char) (s : String) : List String := (splitBy [sep] s.toList).map String.ofList

def replaceFirst (text needle new : List Char) : List Char :=
  match findFrom needle text 0 with
  | none => text
  | some i => text.take i ++ new ++ text.drop (i + needle.length)

/-- Replaces each occurrence of a non-empty text. `skip` characters of an occurrence are still to be passed over, and
`done` is what is written so far, reversed. -/
def replaceAux (needle new : List Char) : Nat → List Char → List Char → List Char
  | _, done, [] => done.reverse
  | skip + 1, done, _ :: rest => replaceAux needle new skip done rest
  | 0, done, c :: rest =>
    if needle.isPrefixOf (c :: rest) then replaceAux needle new (needle.length - 1) (new.reverse ++ done) rest
    else replaceAux needle new 0 (c :: done) rest

def replaceEach (text needle new : List Char) : List Char := replaceAux needle new 0 [] text

def trimStart (cs : List Char) : List Char := cs.dropWhile isBlank

def trimEnd (cs : List Char) : List Char := (cs.reverse.dropWhile isBlank).reverse

def trim (cs : List Char) : List Char := trimEnd (trimStart cs)

def trimmed (s : String) : String := String.ofList (trim s.toList)

end DeskScript.Text
