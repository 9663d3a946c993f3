import DeskScript.Number.Binary
import DeskScript.Text.Search

set_option autoImplicit false

/-!
# Reading numbers

Decimal texts are read exactly and rounded once. Digits of every script count, and an underscore may stand between two
digits where a text comes from outside a script.
-/

namespace DeskScript.Number

open DeskScript.Text

def digitLimit : Nat := 4300

def ofDigits (ds : List Nat) : Nat := ds.foldl (fun n d => 10 * n + d) 0

def ofDecimal (negative : Bool) (coefficient : Nat) (exponent : Int) : Float :=
  let size : Int := (Nat.toDigits 10 coefficient).length + exponent
  let signed (x : Float) : Float := if negative then -x else x
  if coefficient = 0 || size < -330 then signed 0
  else if 330 < size then signed infinity
  else if 0 ≤ exponent then ((ofRatio? negative (coefficient * Nat.pow 10 exponent.toNat) 1).getD (signed infinity))
  else (ofRatio? negative coefficient (Nat.pow 10 (-exponent).toNat)).getD (signed infinity)

def takeDigits : List Char → List Nat × List Char
  | [] => ([], [])
  | c :: rest =>
    match decimalValue? c with
    | some d => let (ds, rest) := takeDigits rest; (d :: ds, rest)
    | none => ([], c :: rest)

def beginsWithDigit : List Char → Bool
  | [] => false
  | c :: _ => (decimalValue? c).isSome

/-- Leading digits with single underscores between them; `after` says that a digit has just been read. -/
def takeGroupedFrom (after : Bool) : List Char → List Nat × List Char
  | [] => ([], [])
  | c :: rest =>
    match decimalValue? c with
    | some d => let (ds, left) := takeGroupedFrom true rest; (d :: ds, left)
    | none => if after && c = '_' && beginsWithDigit rest then takeGroupedFrom false rest else ([], c :: rest)

def takeGrouped (cs : List Char) : List Nat × List Char := takeGroupedFrom false cs

def takeSign : List Char → Bool × List Char
  | '-' :: rest => (true, rest)
  | '+' :: rest => (false, rest)
  | rest => (false, rest)

def exponentPart? (digits : List Char → List Nat × List Char) : List Char → Option Int
  | [] => some 0
  | c :: rest =>
    if c = 'e' || c = 'E' then
      let (negative, rest) := takeSign rest
      let (ds, rest) := digits rest
      if ds.isEmpty || !rest.isEmpty then none
      else
        let n := ofDigits ds
        some (if negative then -(n : Int) else n)
    else none

def decimal? (digits : List Char → List Nat × List Char) (cs : List Char) : Option Float :=
  let (negative, cs) := takeSign cs
  let (whole, cs) := digits cs
  let (fraction, cs) :=
    match cs with
    | '.' :: rest => digits rest
    | _ => ([], cs)
  if whole.isEmpty && fraction.isEmpty then none
  else
    (exponentPart? digits cs).map fun e =>
      ofDecimal negative (ofDigits (whole ++ fraction)) (e - fraction.length)

/-- A blank that may stand beside a number. The four separators of data among the control characters, which trimming
removes too, may not. -/
def isMargin (c : Char) : Bool := isBlank c && !(28 ≤ c.toNat && c.toNat ≤ 31)

def bare (s : String) : List Char := ((s.toList.dropWhile isMargin).reverse.dropWhile isMargin).reverse

def ofText? (s : String) : Option Float :=
  let cs := bare s
  match decimal? takeGrouped cs with
  | some x => some x
  | none =>
    let (negative, word) := takeSign cs
    let word := String.ofList (word.map Char.toLower)
    if word = "inf" || word = "infinity" then some (if negative then -infinity else infinity)
    else if word = "nan" then some notANumber
    else none

inductive IntReading where
  | value (i : Int)
  | malformed
  | tooLong (digits : Nat)

def readInt (s : String) : IntReading :=
  let (negative, cs) := takeSign (bare s)
  let (ds, rest) := takeGrouped cs
  if ds.isEmpty || !rest.isEmpty then .malformed
  else if digitLimit < ds.length then .tooLong ds.length
  else
    let n := ofDigits ds
    .value (if negative then -(n : Int) else n)

end DeskScript.Number
