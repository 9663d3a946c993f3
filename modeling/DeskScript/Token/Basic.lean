import DeskScript.Source.Location

set_option autoImplicit false

/-!
# Tokens

A token has a content, the source text it was read from and its span. Words of the language come in several spellings
of one meaning, so a keyword token names the meaning and its lexeme keeps the spelling.
-/

namespace DeskScript

inductive Keyword where
  | set | print | ifWord | thenWord | elseWord | loop | whileWord | foreach | inWord | breakWord | continueWord
  | returnWord | define | call | tryWord | catchWord | on | emit | alert | notify | confirm | prompt | into
  | default | write | toWord | read | mkdir | delete | launch | withWord | close | wait | focus | minimize | maximize
  | play | trueWord | falseWord | null | and | or | not
  deriving DecidableEq

inductive Symbol where
  | plus | minus | star | slash | percent | eq | ne | lt | gt | le | ge | assign
  | leftBrace | rightBrace | leftParen | rightParen | leftBracket | rightBracket | comma | colon | dot | semicolon
  deriving DecidableEq

inductive LexicalFault where
  | unterminatedString
  | missingVariableName
  | loneAmpersand
  | loneBar
  | unexpectedCharacter (c : Char)
  deriving DecidableEq

/-- A part of a template text: plain text, or a dotted reference such as `user.name`. -/
inductive Piece where
  | text (s : String)
  | reference (path : String)
  deriving DecidableEq

inductive Content where
  | number (x : Float)
  | text (s : String)
  | template (pieces : List Piece)
  | word
  | var (name : String)
  | keyword (k : Keyword)
  | symbol (s : Symbol)
  | newline
  | fault (f : LexicalFault)
  | finish

structure Token where
  content : Content
  lexeme : String
  span : Span

namespace Keyword

def spellings : List (String × Keyword) :=
  [("set", set), ("print", print), ("log", print), ("if", ifWord), ("then", thenWord), ("else", elseWord),
   ("loop", loop), ("repeat", loop), ("while", whileWord), ("foreach", foreach), ("for", foreach), ("in", inWord),
   ("break", breakWord), ("continue", continueWord), ("return", returnWord), ("def", define), ("func", define),
   ("function", define), ("call", call), ("try", tryWord), ("catch", catchWord), ("on", on), ("emit", emit),
   ("alert", alert), ("notify", notify), ("confirm", confirm), ("prompt", prompt), ("into", into),
   ("default", default), ("write", write), ("to", toWord), ("read", read), ("mkdir", mkdir), ("delete", delete),
   ("rm", delete), ("launch", launch), ("open", launch), ("with", withWord), ("close", close), ("wait", wait),
   ("sleep", wait), ("focus", focus), ("minimize", minimize), ("maximize", maximize), ("play", play), ("and", and),
   ("or", or), ("not", not), ("true", trueWord), ("True", trueWord), ("false", falseWord), ("False", falseWord),
   ("null", null)]

def ofText? (s : String) : Option Keyword := spellings.lookup s

def name : Keyword → String
  | set => "SET" | print => "PRINT" | ifWord => "IF" | thenWord => "THEN" | elseWord => "ELSE" | loop => "LOOP"
  | whileWord => "WHILE" | foreach => "FOREACH" | inWord => "IN" | breakWord => "BREAK" | continueWord => "CONTINUE"
  | returnWord => "RETURN" | define => "DEF" | call => "CALL" | tryWord => "TRY" | catchWord => "CATCH" | on => "ON"
  | emit => "EMIT" | alert => "ALERT" | notify => "NOTIFY" | confirm => "CONFIRM" | prompt => "PROMPT"
  | into => "INTO" | default => "DEFAULT" | write => "WRITE" | toWord => "TO" | read => "READ" | mkdir => "MKDIR"
  | delete => "DELETE" | launch => "LAUNCH" | withWord => "WITH" | close => "CLOSE" | wait => "WAIT"
  | focus => "FOCUS" | minimize => "MINIMIZE" | maximize => "MAXIMIZE" | play => "PLAY" | trueWord => "TRUE"
  | falseWord => "FALSE" | null => "NULL" | and => "AND" | or => "OR" | not => "NOT"

end Keyword

namespace Symbol

def name : Symbol → String
  | plus => "PLUS" | minus => "MINUS" | star => "STAR" | slash => "SLASH" | percent => "PERCENT" | eq => "EQ"
  | ne => "NE" | lt => "LT" | gt => "GT" | le => "LE" | ge => "GE" | assign => "ASSIGN" | leftBrace => "LBRACE"
  | rightBrace => "RBRACE" | leftParen => "LPAREN" | rightParen => "RPAREN" | leftBracket => "LBRACKET"
  | rightBracket => "RBRACKET" | comma => "COMMA" | colon => "COLON" | dot => "DOT" | semicolon => "SEMICOLON"

end Symbol

def LexicalFault.message : LexicalFault → String
  | unterminatedString => "unterminated string literal"
  | missingVariableName => "expected variable name after '$'"
  | loneAmpersand => "unexpected character '&' (did you mean '&&'?)"
  | loneBar => "unexpected character '|' (did you mean '||'?)"
  | unexpectedCharacter c => "unexpected character '" ++ c.toString ++ "'"

namespace Content

def name : Content → String
  | number _ => "NUMBER" | text _ => "STRING" | template _ => "TEMPLATE" | word => "IDENTIFIER"
  | var _ => "VARIABLE" | keyword k => k.name | symbol s => s.name | newline => "NEWLINE" | fault _ => "ERROR"
  | finish => "EOF"

end Content

namespace Token

def isKeyword (t : Token) : Bool := t.content matches .keyword _

def hasKeyword (t : Token) (k : Keyword) : Bool :=
  match t.content with
  | .keyword k' => k = k'
  | _ => false

def hasSymbol (t : Token) (s : Symbol) : Bool :=
  match t.content with
  | .symbol s' => s = s'
  | _ => false

def isFinish (t : Token) : Bool := t.content matches .finish

def isFault (t : Token) : Bool := t.content matches .fault _

def isNameLike (t : Token) : Bool := t.content matches .word || t.isKeyword

def adjacent (left right : Token) : Bool := left.span.stop.offset == right.span.start.offset

end Token

end DeskScript
