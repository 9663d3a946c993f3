import DeskScript.Token.Lexer
import DeskScript.Script.Error
import DeskScript.Text.Lines

set_option autoImplicit false

/-!
# Reading tokens

A cursor stands on one token of a list that ends in a `finish` token, and remembers the token before it. A parser reads
from a cursor and gives a result with the cursor behind what it read, or the place and cause of a syntax error.
-/

namespace DeskScript

/-- A place in a token list. `source` is the text the tokens were read from, if it is at hand. -/
structure Cursor where
  source : Option (List Char)
  index : Nat
  previous : Token
  here : Token
  rest : List Token

namespace Cursor

def next (c : Cursor) : Cursor :=
  match c.rest with
  | [] => c
  | t :: rest => if c.here.isFinish then c else { c with index := c.index + 1, previous := c.here, here := t, rest }

/-- The token after the current one, the last token standing for all beyond it. -/
def following (c : Cursor) : Token := c.rest.headD c.here

def ahead (c : Cursor) : Nat := c.rest.length

theorem next_ahead_le (c : Cursor) : c.next.ahead ≤ c.ahead := by
  unfold next ahead
  split
  · exact Nat.le_refl _
  · split
    · exact Nat.le_refl _
    · rename_i h _
      simp [h]

/-- The span from a token to the last token read, or the token itself if nothing was read since. -/
def spanFrom (c : Cursor) (start : Token) : Span :=
  let last := if c.previous.span.stop.offset < start.span.start.offset then start else c.previous
  { start := start.span.start, stop := last.span.stop, file := start.span.file }

def complaint (c : Cursor) (expected : String) : Cause :=
  match c.here.content with
  | .fault f => .lexical f
  | .finish => .unexpectedEnd expected
  | _ => .unexpectedToken expected (Text.quoted c.here.lexeme)

end Cursor

structure SyntaxTrouble where
  cause : Cause
  span : Span

abbrev Parse (α : Type) := StateT Cursor (Except SyntaxTrouble) α

namespace Parse

variable {α : Type}

def expected (what : String) : Parse α := fun c => .error ⟨c.complaint what, c.here.span⟩

def failAt (t : Token) (cause : Cause) : Parse α := fun _ => .error ⟨cause, t.span⟩

def here : Parse Token := return (← get).here

def advance : Parse Token := do
  let t ← here
  modify Cursor.next
  return t

def at_ (test : Token → Bool) : Parse Bool := return test (← here)

def accept (test : Token → Bool) : Parse Bool := do
  if ← at_ test then
    let _ ← advance
    return true
  else return false

def consume (test : Token → Bool) (what : String) : Parse Token := do
  if ← at_ test then advance else expected what

def acceptSymbol (s : Symbol) : Parse Bool := accept (·.hasSymbol s)

def acceptKeyword (k : Keyword) : Parse Bool := accept (·.hasKeyword k)

def consumeSymbol (s : Symbol) (what : String) : Parse Token := consume (·.hasSymbol s) what

def consumeKeyword (k : Keyword) (what : String) : Parse Token := consume (·.hasKeyword k) what

def spanFrom (start : Token) : Parse Span := return (← get).spanFrom start

def attached : Parse Bool := do
  let c ← get
  return c.previous.adjacent c.here

/-- The number of rounds a loop may take when each round passes a token. -/
def rounds : Parse Nat := return (← get).ahead + 1

/-- Passes tokens while they satisfy a test, for at most the given number of rounds. -/
def skipWhile (test : Token → Bool) : Nat → Parse Unit
  | 0 => return ()
  | n + 1 => do
    if ← accept test then skipWhile test n

def skipNewlines : Parse Unit := do skipWhile (·.content matches .newline) (← rounds)

def skipTerminators : Parse Unit := do
  skipWhile (fun t => t.content matches .newline || t.hasSymbol .semicolon) (← rounds)

end Parse

def Token.endsStatement (t : Token) : Bool :=
  match t.content with
  | .newline | .symbol .semicolon | .symbol .rightBrace | .finish => true
  | _ => false

end DeskScript
