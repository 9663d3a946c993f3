import DeskScript.Syntax.Expression

set_option autoImplicit false

/-!
# Parsing statements

A statement ends at a line end, a semicolon or a closing brace; one that ends in a block needs no terminator. A message
is an expression if one spans all of it, and otherwise the raw source text with its `$` references.
-/

namespace DeskScript

namespace Parse

/-- The start of a reference in raw text: an ASCII letter or `_`. -/
def isRawStart (c : Char) : Bool := Text.isAsciiLetter c || c = '_'

def rawPieces (pieces : List Piece) (chars : List Char) (cs : List Char) : List Piece :=
  match cs with
  | [] => (Token.flushText pieces chars).reverse
  | c :: rest =>
    if c = '$' && Token.beginsWith isRawStart rest then
      let name := Token.dottedSpan isRawStart rest
      rawPieces (.reference (String.ofList name.1) :: Token.flushText pieces chars) [] name.2
    else rawPieces pieces (c :: chars) rest
termination_by cs.length
decreasing_by
  · have := Token.dottedSpan_length isRawStart rest
    simp
    omega
  · simp

def rawMessage (span : Span) (raw : List Char) : Expr :=
  let pieces := rawPieces [] [] raw
  if pieces.any (· matches .reference _) then .template span (pieces.map pieceSegment)
  else .literal span (.text (String.ofList raw))

/-- Passes tokens up to one that stops a message, refusing malformed ones; gives their lexemes, reversed. -/
def skipMessage (stops : Token → Bool) : Nat → List String → Parse (List String)
  | 0, lexemes => return lexemes
  | n + 1, lexemes => do
    let t ← here
    if stops t then return lexemes
    else if t.isFault then expected "message text"
    else
      let _ ← advance
      skipMessage stops n (t.lexeme :: lexemes)

/-- The text between two offsets of the source; without a source, the lexemes with blanks between them. -/
def rawText (source : Option (List Char)) (span : Span) (lexemes : List String) : List Char :=
  match source with
  | some cs => (cs.drop span.start.offset).take (span.stop.offset - span.start.offset)
  | none => (" ".intercalate lexemes).toList

def message (expression : Parse Expr) (stops : Token → Bool) : Parse Expr := do
  let start ← here
  if stops start then return .literal start.span (.text "")
  else
    let saved ← get
    let whole? : Option (Expr × Cursor) :=
      match expression.run saved with
      | .ok (e, c) => if stops c.here then some (e, c) else none
      | .error _ => none
    match whole? with
    | some (e, c) =>
      set c
      return e
    | none =>
      let lexemes ← skipMessage stops (← rounds) []
      let span ← spanFrom start
      return rawMessage span (rawText saved.source span lexemes.reverse)

def statementsFrom (statement : Parse Stmt) (endStatement : Parse Unit) (stops : Parse Bool) :
    Nat → List Stmt → Parse (List Stmt)
  | 0, done => return done.reverse
  | n + 1, done => do
    skipTerminators
    if ← stops then return done.reverse
    else
      let s ← statement
      endStatement
      statementsFrom statement endStatement stops n (s :: done)

/-- Requires a terminator, unless the statement ended in a block. -/
def endStatement : Parse Unit := do
  let c ← get
  match c.here.content with
  | .newline | .symbol .semicolon => let _ ← advance
  | .symbol .rightBrace | .finish => return ()
  | _ => if c.previous.hasSymbol .rightBrace then return () else expected "end of statement"

def block (statement : Parse Stmt) : Parse (Block Stmt) := do
  skipNewlines
  let start ← consumeSymbol .leftBrace "'\x7b'"
  let closes : Parse Bool := do
    if ← at_ (·.hasSymbol .rightBrace) then return true
    else if ← at_ (·.isFinish) then expected "'\x7d'"
    else return false
  let statements ← statementsFrom statement endStatement closes (← rounds) []
  let _ ← consumeSymbol .rightBrace "'\x7d'"
  return ⟨← spanFrom start, statements⟩

/-- The parsers a statement is built from: expressions, and bodies inside or outside of a loop. -/
structure Parts where
  nested : Nested
  body : Bool → Parse (Block Stmt)
  statement : Parse Stmt

def Parts.expression (p : Parts) : Parse Expr := p.nested.expression

def expressionStatement (p : Parts) : Parse Stmt := do
  let start ← here
  let e ← p.expression
  return .evaluate (← spanFrom start) e

def targetFrom (expression : Parse Expr) (start : Token) : Nat → Target → Parse Target
  | 0, target => return target
  | n + 1, target => do
    match ← accessor? expression with
    | none => return target
    | some key => targetFrom expression start n (.property (← spanFrom start) target.toExpr key)

/-- An assignment target: a variable with accessors; after `set` the `$` may be left out. -/
def target (expression : Parse Expr) (allowBare : Bool) : Parse Target := do
  let t ← here
  let name ←
    match t.content with
    | .var name => pure name
    | .word => if allowBare then pure t.lexeme else failAt t .invalidTarget
    | _ => failAt t .invalidTarget
  let _ ← advance
  targetFrom expression t (← rounds) (.var t.span name)

def setStatement (p : Parts) : Parse Stmt := do
  let start ← advance
  let target ← target p.expression true
  let _ ← consumeSymbol .assign "'='"
  let value ← p.expression
  return .assign (← spanFrom start) target value

def variableStatement (p : Parts) : Parse Stmt := do
  let start ← here
  let saved ← get
  let target ← target p.expression false
  if ← acceptSymbol .assign then
    let value ← p.expression
    return .assign (← spanFrom start) target value
  else
    set saved
    expressionStatement p

def branchStatement (p : Parts) (inLoop : Bool) : Parse Stmt := do
  let start ← advance
  let condition ← p.expression
  let _ ← acceptKeyword .thenWord
  let thenBlock ← p.body inLoop
  let saved ← get
  skipNewlines
  let elseBlock ← do
    if ← acceptKeyword .elseWord then
      if ← at_ (·.hasKeyword .ifWord) then
        let inner ← p.statement
        pure (some ⟨inner.span, [inner]⟩)
      else some <$> p.body inLoop
    else
      set saved
      pure none
  return .branch (← spanFrom start) condition thenBlock elseBlock

def conditionalLoop (p : Parts) (start : Token) : Parse Stmt := do
  let condition ← p.expression
  let body ← p.body true
  return .conditional (← spanFrom start) body condition

def loopStatement (p : Parts) : Parse Stmt := do
  let start ← advance
  if ← acceptKeyword .whileWord then conditionalLoop p start
  else
    let count ← p.expression
    let body ← p.body true
    return .counted (← spanFrom start) body count

def variableName (what : String) : Parse String := do
  match (← here).content with
  | .var name =>
    let _ ← advance
    return name
  | _ => expected what

def plainName (what : String) : Parse String := do
  let t ← consume (·.content matches .word) what
  return t.lexeme

def foreachStatement (p : Parts) : Parse Stmt := do
  let start ← advance
  let item ← variableName "loop variable"
  let index ← do
    if ← acceptSymbol .comma then some <$> variableName "index variable" else pure none
  let _ ← consumeKeyword .inWord "'in'"
  let iterable ← p.expression
  let body ← p.body true
  return .foreach (← spanFrom start) item iterable body index

def controlStatement (inLoop : Bool) (build : Span → Stmt) : Parse Stmt := do
  let t ← advance
  if inLoop then return build t.span else failAt t (.outsideLoop t.lexeme)

def returnStatement (p : Parts) : Parse Stmt := do
  let start ← advance
  let value ← do
    if ← at_ Token.endsStatement then pure none else some <$> p.expression
  return .giveBack (← spanFrom start) value

/-- A parameter, with or without its `$`. -/
def parameter : Parse String := do
  match (← here).content with
  | .var name =>
    let _ ← advance
    return name
  | _ => plainName "parameter name"

def parametersFrom : Nat → List String → Parse (List String)
  | 0, done => return done.reverse
  | n + 1, done => do
    if ← acceptSymbol .comma then parametersFrom n ((← parameter) :: done) else return done.reverse

def parameters : Parse (List String) := do
  if ← acceptSymbol .leftParen then
    let params ← do
      if ← at_ (·.hasSymbol .rightParen) then pure []
      else
        let first ← parameter
        parametersFrom (← rounds) [first]
    let _ ← consumeSymbol .rightParen "')'"
    return params
  else return []

def defineStatement (p : Parts) : Parse Stmt := do
  let start ← advance
  let name ← plainName "function name"
  let params ← parameters
  let body ← p.body false
  return .define (← spanFrom start) name params body

def attemptStatement (p : Parts) (inLoop : Bool) : Parse Stmt := do
  let start ← advance
  let tryBlock ← p.body inLoop
  skipNewlines
  let _ ← consumeKeyword .catchWord "'catch'"
  let errorVar ← do
    match (← here).content with
    | .var name =>
      let _ ← advance
      pure (some name)
    | _ => pure none
  let catchBlock ← p.body inLoop
  return .attempt (← spanFrom start) tryBlock catchBlock errorVar

def onStatement (p : Parts) : Parse Stmt := do
  let start ← advance
  let event ← word p.expression "event name"
  let body ← p.body false
  return .on (← spanFrom start) event body

def keyValuesFrom (p : Parts) : Nat → List (String × Expr) → Parse (List (String × Expr))
  | 0, done => return done.reverse
  | n + 1, done => do
    let key ← here
    if key.endsStatement then return done.reverse
    else if key.isNameLike then
      let _ ← advance
      let _ ← consumeSymbol .assign "'='"
      let value ← if ← atBareWord then word p.expression "value" else p.expression
      let _ ← acceptSymbol .comma
      keyValuesFrom p n ((key.lexeme, value) :: done)
    else expected "key=value pair"

def keyValues (p : Parts) : Parse Expr := do
  let start ← here
  let entries ← keyValuesFrom p (← rounds) []
  return .object (← spanFrom start) entries

def emitStatement (p : Parts) : Parse Stmt := do
  let start ← advance
  let event ← word p.expression "event name"
  let c ← get
  let payload ← do
    if c.here.isNameLike && c.following.hasSymbol .assign then some <$> keyValues p
    else if c.here.endsStatement then pure none
    else some <$> p.expression
  return .emit (← spanFrom start) event payload

def intoVariable : Parse String := do
  let _ ← consumeKeyword .into "'into'"
  variableName "variable"

def messageUntil (p : Parts) (words : List Keyword) : Parse Expr :=
  message p.expression fun t => t.endsStatement || words.any t.hasKeyword

def command? (p : Parts) : Keyword → Option (Parse (Command Expr))
  | .alert => some do return .alert (← messageUntil p [])
  | .notify => some do return .notify (← messageUntil p [])
  | .confirm => some do
    let message ← messageUntil p [.into]
    return .confirm message (← intoVariable)
  | .prompt => some do
    let message ← messageUntil p [.into, .default]
    let default ← do
      if ← acceptKeyword .default then some <$> messageUntil p [.into] else pure none
    return .prompt message default (← intoVariable)
  | .write => some do
    let content ← messageUntil p [.toWord]
    let _ ← consumeKeyword .toWord "'to'"
    return .write content (← word p.expression "file path")
  | .read => some do
    let path ← word p.expression "file path"
    return .read path (← intoVariable)
  | .mkdir => some do return .mkdir (← word p.expression "directory path")
  | .delete => some do return .delete (← word p.expression "file path")
  | .launch => some do
    let app ← word p.expression "application id"
    let params ← do
      if ← acceptKeyword .withWord then some <$> keyValues p else pure none
    return .launch app params
  | .close => some do
    if ← at_ Token.endsStatement then return .close none
    else return .close (some (← word p.expression "window id"))
  | .wait => some do
    if ← at_ Token.endsStatement then return .wait none else return .wait (some (← p.expression))
  | .focus => some do return .window .focus (← word p.expression "window id")
  | .minimize => some do return .window .minimize (← word p.expression "window id")
  | .maximize => some do return .window .maximize (← word p.expression "window id")
  | .play => some do return .play (← word p.expression "sound name")
  | _ => none

def otherCommand (p : Parts) : Parse Stmt := do
  let start ← advance
  let name ← wordPartsFrom (← rounds) start.lexeme
  let arguments ← spacedArguments p.nested
  let span ← spanFrom start
  return .command span (.other name (.array span arguments))

def statementOf (p : Parts) (inLoop : Bool) : Parse Stmt := do
  let t ← here
  match t.content with
  | .var _ => variableStatement p
  | .keyword .set => setStatement p
  | .keyword .print =>
    let _ ← advance
    let span ← spanFrom t
    return .print span (← messageUntil p [])
  | .keyword .ifWord => branchStatement p inLoop
  | .keyword .loop => loopStatement p
  | .keyword .whileWord =>
    let _ ← advance
    conditionalLoop p t
  | .keyword .foreach => foreachStatement p
  | .keyword .breakWord => controlStatement inLoop .leave
  | .keyword .continueWord => controlStatement inLoop .skip
  | .keyword .returnWord => returnStatement p
  | .keyword .define => defineStatement p
  | .keyword .tryWord => attemptStatement p inLoop
  | .keyword .on => onStatement p
  | .keyword .emit => emitStatement p
  | .keyword .call => expressionStatement p
  | .keyword k =>
    match command? p k with
    | some operands =>
      let _ ← advance
      let request ← operands
      return .command (← spanFrom t) request
    | none => if beginsArgument t then expressionStatement p else expected "statement"
  | .word => if ← atBareWord then otherCommand p else expressionStatement p
  | _ => if beginsArgument t then expressionStatement p else expected "statement"

def statement (nested : Nested) : Nat → Bool → Parse Stmt
  | 0, _ => expected "statement"
  | n + 1, inLoop =>
    statementOf ⟨nested, fun inner => block (statement nested n inner), statement nested n inLoop⟩ inLoop

end Parse

def Cursor.ofTokens (source : Option String) (tokens : List Token) : Cursor :=
  let first := tokens.headD ⟨.finish, "", default⟩
  { source := source.map String.toList, index := 0, previous := first, here := first, rest := tokens.tail }

def sourceLines (source : Option String) : Array String := (Text.lines (source.getD "")).toArray

def SyntaxTrouble.toError (t : SyntaxTrouble) (lines : Array String) : ScriptError :=
  { cause := t.cause, span := some t.span, sourceLine := lines[t.span.start.line - 1]? }

def Parse.program (lines : Array String) : Parse Program := do
  let start ← here
  let n ← rounds
  let statements ← statementsFrom (statement (nested (n + 1)) (n + 1) false) endStatement (at_ (·.isFinish)) n []
  return { span := ← spanFrom start, statements, lines }

/-- The script a list of tokens forms. Without the source, raw messages are lexemes with blanks between them and errors
quote no line. -/
def parseTokens (tokens : List Token) (source : Option String) : Except ScriptError Program :=
  let lines := sourceLines source
  match (Parse.program lines).run (Cursor.ofTokens source tokens) with
  | .ok (program, _) => .ok program
  | .error trouble => .error (trouble.toError lines)

def parse (source : String) (file : Option String := none) : Except ScriptError Program :=
  parseTokens (tokenize source file) (some source)

/-- Parses one expression at the start of a token list; also gives the index of the first token behind it. -/
def parseExpression (tokens : List Token) (source : Option String) : Except ScriptError (Expr × Nat) :=
  match (Parse.nested (tokens.length + 1)).expression.run (Cursor.ofTokens source tokens) with
  | .ok (e, c) => .ok (e, c.index)
  | .error trouble => .error (trouble.toError (sourceLines source))

end DeskScript
