import DeskScript.Syntax.Cursor
import DeskScript.Syntax.Tree

set_option autoImplicit false

/-!
# Parsing expressions

From loosest to tightest: or, and, comparisons, sums, products, unary operators, accessors. Binary operators group to
the left. Accessors and the bracket of a call are attached to what they follow. Each level is written over the parsers
for the levels nested inside it; `nested` ties the knot, one level of nesting per step, and every nesting passes a
token, so as many steps as there are tokens are enough.
-/

namespace DeskScript

namespace Parse

/-- The parsers that nested brackets and operands return to. -/
structure Nested where
  expression : Parse Expr
  unary : Parse Expr

def chainFrom {ω : Type} (operand : Parse Expr) (operator? : Token → Option ω) (build : Span → ω → Expr → Expr → Expr)
    (start : Token) : Nat → Expr → Parse Expr
  | 0, left => return left
  | n + 1, left => do
    match operator? (← here) with
    | none => return left
    | some op =>
      let _ ← advance
      let right ← operand
      chainFrom operand operator? build start n (build (← spanFrom start) op left right)

def chain {ω : Type} (operand : Parse Expr) (operator? : Token → Option ω)
    (build : Span → ω → Expr → Expr → Expr) : Parse Expr := do
  let start ← here
  let first ← operand
  chainFrom operand operator? build start (← rounds) first

def itemsFrom (item : Parse Expr) (close : Symbol) : Nat → List Expr → Parse (List Expr)
  | 0, done => return done.reverse
  | n + 1, done => do
    if ← acceptSymbol .comma then
      if ← at_ (·.hasSymbol close) then return done.reverse
      else itemsFrom item close n ((← item) :: done)
    else return done.reverse

def itemsUntil (item : Parse Expr) (close : Symbol) (what : String) : Parse (List Expr) := do
  let items ← do
    if ← at_ (·.hasSymbol close) then pure []
    else
      let first ← item
      itemsFrom item close (← rounds) [first]
  let _ ← consumeSymbol close what
  return items

def parenArguments (expression : Parse Expr) : Parse (List Expr) := do
  let _ ← consumeSymbol .leftParen "'('"
  itemsUntil expression .rightParen "')'"

def arrayLiteral (expression : Parse Expr) : Parse Expr := do
  let start ← advance
  let elements ← itemsUntil expression .rightBracket "']'"
  return .array (← spanFrom start) elements

/-- The key a token spells in an object: a text, a number as written, or any word. -/
def objectKey? (t : Token) : Option String :=
  match t.content with
  | .text s => some s
  | .word | .keyword _ | .number _ => some t.lexeme
  | _ => none

def entriesFrom (expression : Parse Expr) : Nat → List (String × Expr) → Parse (List (String × Expr))
  | 0, done => return done.reverse
  | n + 1, done => do
    if ← at_ (·.hasSymbol .rightBrace) then return done.reverse
    else
      match objectKey? (← here) with
      | none => expected "object key"
      | some key =>
        let _ ← advance
        let _ ← consumeSymbol .colon "':'"
        skipNewlines
        let value ← expression
        skipNewlines
        if ← acceptSymbol .comma then
          skipNewlines
          entriesFrom expression n ((key, value) :: done)
        else return ((key, value) :: done).reverse

def objectLiteral (expression : Parse Expr) : Parse Expr := do
  let start ← advance
  skipNewlines
  let entries ← entriesFrom expression (← rounds) []
  skipNewlines
  let _ ← consumeSymbol .rightBrace "'\x7d'"
  return .object (← spanFrom start) entries

def isWordPart (t : Token) : Bool :=
  match t.content with
  | .word | .keyword _ | .number _ | .symbol .colon | .symbol .minus | .symbol .star | .symbol .dot
  | .symbol .slash => true
  | _ => false

def wordPartsFrom : Nat → String → Parse String
  | 0, text => return text
  | n + 1, text => do
    if (← at_ isWordPart) && (← attached) then
      let t ← advance
      wordPartsFrom n (text ++ t.lexeme)
    else return text

def gluedWord : Parse Expr := do
  let start ← advance
  let text ← wordPartsFrom (← rounds) start.lexeme
  return .literal (← spanFrom start) (.text text)

/-- A word, or an expression that begins with a quote, a variable or a parenthesis. -/
def word (expression : Parse Expr) (what : String) : Parse Expr := do
  let t ← here
  match t.content with
  | .text _ | .template _ | .var _ | .symbol .leftParen => expression
  | _ => if isWordPart t then gluedWord else expected what

def atBareWord : Parse Bool := do
  let c ← get
  return c.here.content matches .word && !(c.following.hasSymbol .leftParen && c.here.adjacent c.following)

def beginsArgument (t : Token) : Bool :=
  match t.content with
  | .number _ | .text _ | .template _ | .var _ | .word => true
  | .keyword .trueWord | .keyword .falseWord | .keyword .null | .keyword .not => true
  | .symbol .leftParen | .symbol .leftBracket | .symbol .minus => true
  | _ => false

def spacedFrom (nested : Nested) : Nat → List Expr → Parse (List Expr)
  | 0, done => return done.reverse
  | n + 1, done => do
    if ← at_ beginsArgument then
      let argument ← if ← atBareWord then word nested.expression "argument" else nested.unary
      spacedFrom nested n (argument :: done)
    else return done.reverse

def spacedArguments (nested : Nested) : Parse (List Expr) := do spacedFrom nested (← rounds) []

def callCommand (nested : Nested) : Parse Expr := do
  let start ← advance
  let name ← here
  if name.isNameLike then
    let _ ← advance
    let t ← here
    let arguments ←
      if t.hasSymbol .leftParen && name.adjacent t then parenArguments nested.expression else spacedArguments nested
    return .call (← spanFrom start) name.lexeme arguments
  else expected "function name"

def pathSegment (path : String) : Segment :=
  match Text.splitAtChar '.' path with
  | [] => .reference path []
  | name :: keys => .reference name keys

def pieceSegment : Piece → Segment
  | .text s => .text s
  | .reference path => pathSegment path

def isReservedWord : Keyword → Bool
  | .trueWord | .falseWord | .null | .and | .or | .not => true
  | _ => false

def namedCall (nested : Nested) : Parse Expr := do
  let name ← advance
  let arguments ← parenArguments nested.expression
  return .call (← spanFrom name) name.lexeme arguments

def constant (value : Literal) : Parse Expr := do
  let t ← advance
  return .literal t.span value

def primary (nested : Nested) : Parse Expr := do
  let t ← here
  let next := (← get).following
  let opensCall := next.hasSymbol .leftParen && t.adjacent next
  match t.content with
  | .number x => constant (.number x)
  | .text s => constant (.text s)
  | .template pieces =>
    let _ ← advance
    return .template t.span (pieces.map pieceSegment)
  | .keyword .trueWord => constant (.bool true)
  | .keyword .falseWord => constant (.bool false)
  | .keyword .null => constant .null
  | .var name =>
    let _ ← advance
    return .var t.span name
  | .symbol .leftParen =>
    let _ ← advance
    let inner ← nested.expression
    let _ ← consumeSymbol .rightParen "')'"
    return inner
  | .symbol .leftBracket => arrayLiteral nested.expression
  | .symbol .leftBrace => objectLiteral nested.expression
  | .keyword .call => callCommand nested
  | .word => if opensCall then namedCall nested else constant (.text t.lexeme)
  | .keyword k => if !isReservedWord k && opensCall then namedCall nested else expected "expression"
  | _ => expected "expression"

def memberName : Parse Expr := do
  let t ← here
  if t.isNameLike then constant (.text t.lexeme) else expected "property name"

def accessor? (expression : Parse Expr) : Parse (Option Expr) := do
  if ← attached then
    if ← acceptSymbol .dot then some <$> memberName
    else if ← acceptSymbol .leftBracket then
      let key ← expression
      let _ ← consumeSymbol .rightBracket "']'"
      return some key
    else return none
  else return none

def accessorsFrom (expression : Parse Expr) (start : Token) : Nat → Expr → Parse Expr
  | 0, base => return base
  | n + 1, base => do
    match ← accessor? expression with
    | none => return base
    | some key => accessorsFrom expression start n (.property (← spanFrom start) base key)

def accessed (nested : Nested) : Parse Expr := do
  let start ← here
  let base ← primary nested
  accessorsFrom nested.expression start (← rounds) base

def unaryOperator? (t : Token) : Option UnaryOp :=
  match t.content with
  | .symbol .minus => some .negate
  | .keyword .not => some .not
  | _ => none

def productOperator? (t : Token) : Option BinaryOp :=
  match t.content with
  | .symbol .star => some .times
  | .symbol .slash => some .divide
  | .symbol .percent => some .remainder
  | _ => none

def sumOperator? (t : Token) : Option BinaryOp :=
  match t.content with
  | .symbol .plus => some .plus
  | .symbol .minus => some .minus
  | _ => none

def comparisonOperator? (t : Token) : Option BinaryOp :=
  match t.content with
  | .symbol .eq => some .eq
  | .symbol .ne => some .ne
  | .symbol .lt => some .lt
  | .symbol .gt => some .gt
  | .symbol .le => some .le
  | .symbol .ge => some .ge
  | _ => none

def logicOperator? (op : LogicOp) (t : Token) : Option LogicOp :=
  let k : Keyword := match op with | .and => .and | .or => .or
  if t.hasKeyword k then some op else none

def unaryLevel (nested : Nested) : Parse Expr := do
  let start ← here
  match unaryOperator? start with
  | some op =>
    let _ ← advance
    let operand ← nested.unary
    return .unary (← spanFrom start) op operand
  | none => accessed nested

def productLevel (nested : Nested) : Parse Expr := chain (unaryLevel nested) productOperator? Expr.binary

def sumLevel (nested : Nested) : Parse Expr := chain (productLevel nested) sumOperator? Expr.binary

def comparisonLevel (nested : Nested) : Parse Expr := chain (sumLevel nested) comparisonOperator? Expr.binary

def andLevel (nested : Nested) : Parse Expr := chain (comparisonLevel nested) (logicOperator? .and) Expr.logic

def orLevel (nested : Nested) : Parse Expr := chain (andLevel nested) (logicOperator? .or) Expr.logic

def nested : Nat → Nested
  | 0 => ⟨expected "expression", expected "expression"⟩
  | n + 1 => ⟨orLevel (nested n), unaryLevel (nested n)⟩

end Parse

end DeskScript
