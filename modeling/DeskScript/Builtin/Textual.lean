import DeskScript.Builtin.Signature
import DeskScript.Text.Case
import DeskScript.Text.Search

set_option autoImplicit false

/-!
# Text functions

Arguments that are not texts are taken in their displayed form, except where a signature asks for a text.
-/

namespace DeskScript

inductive TextFn where
  | upper | lower | trim | trimStart | trimEnd | charAt | charCode | fromCharCode | concat | substr | substring
  | startsWith | endsWith | replace | replaceAll | split | join | padStart | padEnd | repeat_
  deriving DecidableEq

namespace TextFn

def table : List (String × TextFn) :=
  [("upper", upper), ("lower", lower), ("trim", trim), ("trimStart", trimStart), ("trimEnd", trimEnd),
   ("charAt", charAt), ("charCode", charCode), ("fromCharCode", fromCharCode), ("concat", concat), ("substr", substr),
   ("substring", substring), ("startsWith", startsWith), ("endsWith", endsWith), ("replace", replace),
   ("replaceAll", replaceAll), ("split", split), ("join", join), ("padStart", padStart), ("padEnd", padEnd),
   ("repeat", repeat_)]

def signature : TextFn → Signature
  | upper | lower | trim | trimStart | trimEnd => .exactly 1 [.text]
  | charAt => .exactly 2 [.text, .number]
  | charCode => .between 1 2 [.text, .number]
  | fromCharCode => .atLeast 0 [.number]
  | concat => .atLeast 0 [.text]
  | substr | substring => .between 2 3 [.text, .number, .number]
  | startsWith | endsWith => .exactly 2 [.text]
  | replace | replaceAll => .exactly 3 [.text]
  | split => .between 1 2 [.text]
  | join => .between 1 2 [.array, .text]
  | padStart | padEnd => .between 2 3 [.text, .number, .text]
  | repeat_ => .exactly 2 [.text, .number]

def padding (length : Nat) (wanted : Int) (fill : List Char) : Except Failure (List Char) :=
  let missing := wanted - length
  if missing ≤ 0 || fill.isEmpty then .ok []
  else
    let times := missing / fill.length + 1
    if Builtin.indexLimit < times then .error (.fault .countTooLarge)
    else if Builtin.indexLimit < times * fill.length then .error (.fault .repetitionTooLong)
    else .ok ((List.replicate times.toNat fill).flatten.take missing.toNat)

def repeated (s : String) (count : Int) : Except Failure String :=
  let times := max 0 count
  if (generatedLimit : Int) < s.length * times then .error (.because .repeatTooLong)
  else if Builtin.indexLimit < times then .error (.fault .countTooLarge)
  else if s.isEmpty then .ok ""
  else .ok (String.join (List.replicate times.toNat s))

def codeLimit : Int := Nat.pow 2 31

def charOfCode (i : Int) : Except Failure Char :=
  if i < -codeLimit || codeLimit ≤ i then .error (.because (.invalidCodePoint Fault.codePointTooLarge.message))
  else if i < 0 || 0x110000 ≤ i then .error (.because (.invalidCodePoint Fault.codePointRange.message))
  else .ok (Char.ofNat i.toNat)

def charsOfCodes : List Value → Except Failure (List Char)
  | [] => .ok []
  | .num x :: rest => do
    let i ← Builtin.intArgument "fromCharCode" x
    let c ← charOfCode i
    return c :: (← charsOfCodes rest)
  | _ :: rest => charsOfCodes rest

def substringOf (cs : List Char) (a b : Nat) : List Char :=
  let low := min a b
  (cs.drop low).take (max a b - low)

def within (i : Int) (length : Nat) : Nat := min i.toNat length

def splitParts (text separator : List Char) : List String :=
  if separator.isEmpty then text.map Char.toString else (Text.splitBy separator text).map String.ofList

def padded (name : String) (h : Heap) (args : List Value) (place : List Char → List Char → List Char) : Outcome :=
  match args with
  | s :: .num length :: rest => do
    let text := (h.display s).toList
    let fill := match rest with
      | fill :: _ => (h.display fill).toList
      | [] => [' ']
    let pad ← padding text.length (← Builtin.intArgument name length) fill
    Outcome.chars h (place text pad)
  | _ => Outcome.give h .null

def apply (f : TextFn) (h : Heap) (args : List Value) : Outcome :=
  let chars (v : Value) : List Char := (h.display v).toList
  match f, args with
  | upper, [s] => Outcome.text h (Text.upper (h.display s))
  | lower, [s] => Outcome.text h (Text.lower (h.display s))
  | trim, [s] => Outcome.chars h (Text.trim (chars s))
  | trimStart, [s] => Outcome.chars h (Text.trimStart (chars s))
  | trimEnd, [s] => Outcome.chars h (Text.trimEnd (chars s))
  | charAt, [s, .num x] => do
    let i ← Builtin.intArgument "charAt" x
    Outcome.chars h (if i < 0 then [] else ((chars s)[i.toNat]?).toList)
  | charCode, s :: rest => do
    let i ← match rest with
      | .num x :: _ => Builtin.intArgument "charCode" x
      | _ => pure 0
    match (if i < 0 then none else (chars s)[i.toNat]?) with
    | some c => Outcome.number h (Number.ofNat c.toNat)
    | none => Outcome.number h Number.notANumber
  | fromCharCode, codes => do Outcome.chars h (← charsOfCodes codes)
  | concat, parts => Outcome.text h (String.join (parts.map h.display))
  | substr, s :: .num start :: rest => do
    let text := chars s
    let a := within (← Builtin.intArgument "substr" start) text.length
    match rest with
    | .num length :: _ =>
      let n := within (← Builtin.intArgument "substr" length) text.length
      Outcome.chars h ((text.drop a).take n)
    | _ => Outcome.chars h (text.drop a)
  | substring, s :: .num start :: rest => do
    let text := chars s
    let a := within (← Builtin.intArgument "substring" start) text.length
    match rest with
    | .num stop :: _ =>
      let b := within (← Builtin.intArgument "substring" stop) text.length
      Outcome.chars h (substringOf text a b)
    | _ => Outcome.chars h (text.drop a)
  | startsWith, [s, p] => Outcome.bool h ((chars p).isPrefixOf (chars s))
  | endsWith, [s, p] => Outcome.bool h ((chars p).isSuffixOf (chars s))
  | replace, [s, a, b] => Outcome.chars h (Text.replaceFirst (chars s) (chars a) (chars b))
  | replaceAll, [s, a, b] =>
    let needle := chars a
    Outcome.chars h (if needle.isEmpty then chars s else Text.replaceEach (chars s) needle (chars b))
  | split, s :: rest =>
    let separator := match rest with
      | sep :: _ => chars sep
      | [] => []
    Outcome.array h ((splitParts (chars s) separator).map Value.str).toArray
  | join, .arr id :: rest =>
    let separator := match rest with
      | sep :: _ => h.display sep
      | [] => ""
    Outcome.text h (separator.intercalate ((h.items id).toList.map h.display))
  | padStart, args => padded "padStart" h args fun text pad => pad ++ text
  | padEnd, args => padded "padEnd" h args fun text pad => text ++ pad
  | repeat_, [s, .num x] => do
    let count ← Builtin.intArgument "repeat" x
    Outcome.text h (← repeated (h.display s) count)
  | _, _ => Outcome.give h .null

end TextFn

end DeskScript
