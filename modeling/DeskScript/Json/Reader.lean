import DeskScript.Number.Read
import DeskScript.Plain
import DeskScript.Script.Fault

set_option autoImplicit false

/-!
# Reading JSON

A text is read to plain data. A complaint is kept with the number of characters left when it arose, from which its line
and column follow. A dialect says which characters are blank and what a number stands for.
-/

namespace DeskScript.Json

inductive Complaint where
  | byteOrderMark
  | value
  | extra
  | propertyName
  | colon
  | comma
  | unterminated
  | controlCharacter
  | escape
  | unicodeEscape
  /-- A number that the dialect refuses. -/
  | number (f : Fault)

def Complaint.message : Complaint → String
  | byteOrderMark => "Unexpected UTF-8 BOM (decode using utf-8-sig)"
  | value => "Expecting value"
  | extra => "Extra data"
  | propertyName => "Expecting property name enclosed in double quotes"
  | colon => "Expecting ':' delimiter"
  | comma => "Expecting ',' delimiter"
  | unterminated => "Unterminated string starting at"
  | controlCharacter => "Invalid control character at"
  | escape => "Invalid \\escape"
  | unicodeEscape => "Invalid \\uXXXX escape"
  | number f => f.message

/-- A complaint and the number of characters from its place to the end. -/
structure Trouble where
  complaint : Complaint
  left : Nat

abbrev Reading (α : Type) := Except Trouble (α × List Char)

structure Dialect where
  blank : Char → Bool
  /-- Words that stand for values. -/
  words : List (List Char × Plain)
  /-- The value of a number, given its characters and whether it has a fraction or an exponent. -/
  number : List Char → Bool → Except Fault Plain

def plainNumber (lexeme : List Char) (isFloat : Bool) : Except Fault Plain :=
  if isFloat then .ok (.float ((Number.decimal? Number.takeDigits lexeme).getD 0))
  else
    match Number.readInt (String.ofList lexeme) with
    | .value i => .ok (.int i)
    | .tooLong n => .error (.tooManyDigits n)
    | .malformed => .error (.notAnInteger (String.ofList lexeme))

def baseWords : List (List Char × Plain) :=
  [("null".toList, .null), ("true".toList, .bool true), ("false".toList, .bool false)]

def standard : Dialect :=
  { blank := fun c => c = ' ' || c = '\t' || c = '\n' || c = '\r'
    words := baseWords ++
      [("NaN".toList, .float Number.notANumber), ("Infinity".toList, .float Number.infinity),
       ("-Infinity".toList, .float (-Number.infinity))]
    number := plainNumber }

def complain {α : Type} (complaint : Complaint) (rest : List Char) : Reading α := .error ⟨complaint, rest.length⟩

def hexValue? (c : Char) : Option Nat :=
  if '0' ≤ c && c ≤ '9' then some (c.toNat - 48)
  else if 'a' ≤ c && c ≤ 'f' then some (c.toNat - 87)
  else if 'A' ≤ c && c ≤ 'F' then some (c.toNat - 55)
  else none

def hex4? : List Char → Option Nat
  | [a, b, c, d] => do
    return 4096 * (← hexValue? a) + 256 * (← hexValue? b) + 16 * (← hexValue? c) + (← hexValue? d)
  | _ => none

def unescape? : Char → Option Char
  | '"' => some '"'
  | '\\' => some '\\'
  | '/' => some '/'
  | 'b' => some (Char.ofNat 8)
  | 'f' => some (Char.ofNat 12)
  | 'n' => some '\n'
  | 'r' => some '\r'
  | 't' => some '\t'
  | _ => none

def isHighSurrogate (n : Nat) : Bool := 0xD800 ≤ n && n < 0xDC00

def isLowSurrogate (n : Nat) : Bool := 0xDC00 ≤ n && n < 0xE000

/-- The second half of a surrogate pair: two characters `\u` and four digits, with a character left behind them. -/
def lowSurrogate? (rest : List Char) : Except Trouble (Option Nat) :=
  match rest with
  | '\\' :: 'u' :: more =>
    if more.length < 5 then .ok none
    else
      match hex4? (more.take 4) with
      | none => .error ⟨.unicodeEscape, more.length + 1⟩
      | some n => .ok (if isLowSurrogate n then some n else none)
  | _ => .ok none

/-- The rest of a string after its opening quote. `start` is the length left at that quote, `done` what was read. -/
def stringFrom (start : Nat) : Nat → List Char → List Char → Reading String
  | 0, _, _ => .error ⟨.unterminated, start⟩
  | _ + 1, _, [] => .error ⟨.unterminated, start⟩
  | fuel + 1, done, c :: rest =>
    if c = '"' then .ok (String.ofList done.reverse, rest)
    else if c = '\\' then
      match rest with
      | [] => .error ⟨.unterminated, start⟩
      | 'u' :: digits =>
        if digits.length ≤ 4 then complain .unicodeEscape rest
        else
          match hex4? (digits.take 4) with
          | none => complain .unicodeEscape rest
          | some n =>
            let rest := digits.drop 4
            if isHighSurrogate n then
              match lowSurrogate? rest with
              | .error t => .error t
              | .ok none => stringFrom start fuel (Char.ofNat n :: done) rest
              | .ok (some low) =>
                let joined := 0x10000 + (n - 0xD800) * 0x400 + (low - 0xDC00)
                stringFrom start fuel (Char.ofNat joined :: done) (rest.drop 6)
            else stringFrom start fuel (Char.ofNat n :: done) rest
      | e :: rest' =>
        match unescape? e with
        | some d => stringFrom start fuel (d :: done) rest'
        | none => complain .escape (c :: rest)
    else if c.toNat < 32 then complain .controlCharacter (c :: rest)
    else stringFrom start fuel (c :: done) rest

def string (cs : List Char) : Reading String := stringFrom cs.length cs.length [] cs.tail

def takeAscii : List Char → List Char × List Char
  | [] => ([], [])
  | c :: rest =>
    if '0' ≤ c && c ≤ '9' then let (ds, left) := takeAscii rest; (c :: ds, left) else ([], c :: rest)

def numberSpan? (cs : List Char) : Option (List Char × Bool × List Char) :=
  let (sign, cs) := match cs with
    | '-' :: rest => (['-'], rest)
    | _ => ([], cs)
  let whole := match cs with
    | '0' :: rest => (['0'], rest)
    | _ => takeAscii cs
  if whole.1.isEmpty then none
  else
    let fraction := match whole.2 with
      | '.' :: rest =>
        let ds := takeAscii rest
        if ds.1.isEmpty then ([], whole.2) else ('.' :: ds.1, ds.2)
      | _ => ([], whole.2)
    let exponent := match fraction.2 with
      | e :: rest =>
        if e = 'e' || e = 'E' then
          let signed := match rest with
            | s :: more => if s = '+' || s = '-' then ([s], more) else ([], rest)
            | [] => ([], rest)
          let ds := takeAscii signed.2
          if ds.1.isEmpty then ([], fraction.2) else (e :: signed.1 ++ ds.1, ds.2)
        else ([], fraction.2)
      | [] => ([], fraction.2)
    some (sign ++ whole.1 ++ fraction.1 ++ exponent.1, !(fraction.1.isEmpty && exponent.1.isEmpty), exponent.2)

def scalar (d : Dialect) (cs : List Char) : Reading Plain :=
  match d.words.find? fun (w, _) => w.isPrefixOf cs with
  | some (w, v) => .ok (v, cs.drop w.length)
  | none =>
    match numberSpan? cs with
    | none => complain .value cs
    | some (lexeme, isFloat, rest) =>
      match d.number lexeme isFloat with
      | .ok v => .ok (v, rest)
      | .error f => complain (.number f) cs

def skipBlanks (d : Dialect) (cs : List Char) : List Char := cs.dropWhile d.blank

mutual

def value (d : Dialect) : Nat → List Char → Reading Plain
  | 0, cs => complain .value cs
  | fuel + 1, cs =>
    match cs with
    | [] => complain .value cs
    | '"' :: _ => (string cs).map fun (s, rest) => (.str s, rest)
    | '{' :: rest =>
      match skipBlanks d rest with
      | '}' :: rest => .ok (.dict [], rest)
      | rest => members d fuel [] rest
    | '[' :: rest =>
      match skipBlanks d rest with
      | ']' :: rest => .ok (.list [], rest)
      | rest => elements d fuel [] rest
    | _ => scalar d cs

/-- The members of an object from a property name on; a later value of a name replaces an earlier one. -/
def members (d : Dialect) : Nat → Dict Plain → List Char → Reading Plain
  | 0, _, cs => complain .propertyName cs
  | fuel + 1, done, cs =>
    match cs with
    | '"' :: _ =>
      match string cs with
      | .error t => .error t
      | .ok (key, rest) =>
        match skipBlanks d rest with
        | ':' :: rest =>
          match value d fuel (skipBlanks d rest) with
          | .error t => .error t
          | .ok (v, rest) =>
            let done := done.insert key v
            match skipBlanks d rest with
            | '}' :: rest => .ok (.dict done, rest)
            | ',' :: rest => members d fuel done (skipBlanks d rest)
            | rest => complain .comma rest
        | rest => complain .colon rest
    | _ => complain .propertyName cs

def elements (d : Dialect) : Nat → List Plain → List Char → Reading Plain
  | 0, _, cs => complain .value cs
  | fuel + 1, done, cs =>
    match value d fuel cs with
    | .error t => .error t
    | .ok (v, rest) =>
      match skipBlanks d rest with
      | ']' :: rest => .ok (.list (v :: done).reverse, rest)
      | ',' :: rest => elements d fuel (v :: done) (skipBlanks d rest)
      | rest => complain .comma rest

end

def document (d : Dialect) (cs : List Char) : Except Trouble Plain :=
  match cs with
  | c :: _ =>
    if c.toNat = 0xFEFF then .error ⟨.byteOrderMark, cs.length⟩
    else
      match value d (2 * cs.length + 2) (skipBlanks d cs) with
      | .error t => .error t
      | .ok (v, rest) =>
        match skipBlanks d rest with
        | [] => .ok v
        | rest => .error ⟨.extra, rest.length⟩
  | [] => .error ⟨.value, 0⟩

def Trouble.message (t : Trouble) (cs : List Char) : String :=
  match t.complaint with
  | .number f => f.message
  | complaint =>
    let offset := cs.length - t.left
    let before := cs.take offset
    let line := before.count '\n' + 1
    let column := (before.reverse.takeWhile (· ≠ '\n')).length + 1
    s!"{complaint.message}: line {line} column {column} (char {offset})"

end DeskScript.Json
