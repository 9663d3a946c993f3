import DeskScript.Source.Location

set_option autoImplicit false

/-!
# Syntax trees

Expressions and statements as the parser builds them. Every node carries the span of its source text. A command is
written over its operands, so that the same type serves the tree (operands are expressions) and the running script
(operands are values).
-/

namespace DeskScript

inductive Literal where
  | null
  | bool (b : Bool)
  | number (x : Float)
  | text (s : String)

inductive BinaryOp where
  | plus | minus | times | divide | remainder
  | eq | ne | lt | gt | le | ge
  deriving DecidableEq

/-- Operators that may skip their right operand. -/
inductive LogicOp where
  | and | or
  deriving DecidableEq

inductive UnaryOp where
  | negate | not
  deriving DecidableEq

/-- A part of a template: text, or a variable followed by property names. -/
inductive Segment where
  | text (s : String)
  | reference (name : String) (keys : List String)

inductive Expr where
  | literal (span : Span) (value : Literal)
  | var (span : Span) (name : String)
  | binary (span : Span) (op : BinaryOp) (left right : Expr)
  | logic (span : Span) (op : LogicOp) (left right : Expr)
  | unary (span : Span) (op : UnaryOp) (operand : Expr)
  | call (span : Span) (name : String) (arguments : List Expr)
  | array (span : Span) (elements : List Expr)
  | object (span : Span) (entries : List (String × Expr))
  | template (span : Span) (segments : List Segment)
  | property (span : Span) (base key : Expr)

inductive Target where
  | var (span : Span) (name : String)
  | property (span : Span) (base key : Expr)

inductive WindowAction where
  | focus | minimize | maximize
  deriving DecidableEq

/-- A request to the host, over operands of type `α`; `into` names the variable that receives an answer. -/
inductive Command (α : Type) where
  | alert (message : α)
  | notify (message : α)
  | confirm (message : α) (into : String)
  | prompt (message : α) (default : Option α) (into : String)
  | write (content path : α)
  | read (path : α) (into : String)
  | mkdir (path : α)
  | delete (path : α)
  | launch (app : α) (params : Option α)
  | close (target : Option α)
  | wait (duration : Option α)
  | window (action : WindowAction) (target : α)
  | play (sound : α)
  | other (name : String) (args : α)

structure Block (σ : Type) where
  span : Span
  statements : List σ

inductive Stmt where
  | assign (span : Span) (target : Target) (value : Expr)
  | print (span : Span) (message : Expr)
  | branch (span : Span) (condition : Expr) (thenBlock : Block Stmt) (elseBlock : Option (Block Stmt))
  | counted (span : Span) (body : Block Stmt) (count : Expr)
  | conditional (span : Span) (body : Block Stmt) (condition : Expr)
  | foreach (span : Span) (item : String) (iterable : Expr) (body : Block Stmt) (index : Option String)
  | leave (span : Span)
  | skip (span : Span)
  | giveBack (span : Span) (value : Option Expr)
  | define (span : Span) (name : String) (params : List String) (body : Block Stmt)
  | command (span : Span) (request : Command Expr)
  | attempt (span : Span) (tryBlock catchBlock : Block Stmt) (errorVar : Option String)
  | on (span : Span) (event : Expr) (body : Block Stmt)
  | emit (span : Span) (event : Expr) (payload : Option Expr)
  | evaluate (span : Span) (expression : Expr)

structure Program where
  span : Span
  statements : List Stmt
  lines : Array String

namespace BinaryOp

def sign : BinaryOp → String
  | plus => "+" | minus => "-" | times => "*" | divide => "/" | remainder => "%"
  | eq => "==" | ne => "!=" | lt => "<" | gt => ">" | le => "<=" | ge => ">="

def isComparison : BinaryOp → Bool
  | eq | ne | lt | gt | le | ge => true
  | plus | minus | times | divide | remainder => false

end BinaryOp

def WindowAction.name : WindowAction → String
  | focus => "focus" | minimize => "minimize" | maximize => "maximize"

namespace Expr

def span : Expr → Span
  | literal s _ | var s _ | binary s _ _ _ | logic s _ _ _ | unary s _ _ | call s _ _ | array s _ | object s _
  | template s _ | property s _ _ => s

end Expr

namespace Target

def span : Target → Span
  | var s _ | property s _ _ => s

def toExpr : Target → Expr
  | var s name => .var s name
  | property s base key => .property s base key

end Target

namespace Command

variable {α β : Type}

def name : Command α → String
  | alert _ => "alert" | notify _ => "notify" | confirm .. => "confirm" | prompt .. => "prompt" | write .. => "write"
  | read .. => "read" | mkdir _ => "mkdir" | delete _ => "delete" | launch .. => "launch" | close _ => "close"
  | wait _ => "wait" | window action _ => action.name | play _ => "play" | other name _ => name

def operands : Command α → List (String × α)
  | alert m | notify m | confirm m _ => [("message", m)]
  | prompt m none _ => [("message", m)]
  | prompt m (some d) _ => [("message", m), ("default", d)]
  | write c p => [("content", c), ("path", p)]
  | read p _ | mkdir p | delete p => [("path", p)]
  | launch a none => [("app", a)]
  | launch a (some p) => [("app", a), ("params", p)]
  | close none | wait none => []
  | close (some t) => [("target", t)]
  | wait (some d) => [("duration", d)]
  | window _ t => [("target", t)]
  | play s => [("sound", s)]
  | other _ args => [("args", args)]

def into? : Command α → Option String
  | confirm _ v | prompt _ _ v | read _ v => some v
  | _ => none

/-- The same command over other operands, given in the order of `operands`. -/
def fill? : Command α → List β → Option (Command β)
  | alert _, [m] => some (.alert m)
  | notify _, [m] => some (.notify m)
  | confirm _ v, [m] => some (.confirm m v)
  | prompt _ none v, [m] => some (.prompt m none v)
  | prompt _ (some _) v, [m, d] => some (.prompt m (some d) v)
  | write _ _, [c, p] => some (.write c p)
  | read _ v, [p] => some (.read p v)
  | mkdir _, [p] => some (.mkdir p)
  | delete _, [p] => some (.delete p)
  | launch _ none, [a] => some (.launch a none)
  | launch _ (some _), [a, p] => some (.launch a (some p))
  | close none, [] => some (.close none)
  | close (some _), [t] => some (.close (some t))
  | wait none, [] => some (.wait none)
  | wait (some _), [d] => some (.wait (some d))
  | window action _, [t] => some (.window action t)
  | play _, [s] => some (.play s)
  | other name _, [args] => some (.other name args)
  | _, _ => none

end Command

namespace Stmt

def span : Stmt → Span
  | assign s _ _ | print s _ | branch s _ _ _ | counted s _ _ | conditional s _ _ | foreach s _ _ _ _ | leave s
  | skip s | giveBack s _ | define s _ _ _ | command s _ | attempt s _ _ _ | on s _ _ | emit s _ _
  | evaluate s _ => s

end Stmt

namespace Program

def line? (p : Program) (n : Nat) : Option String := if n = 0 then none else p.lines[n - 1]?

end Program

end DeskScript
