import DeskScript.Machine.Desk

set_option autoImplicit false

/-!
# Threads

A thread is what it does now, its control, and a stack of frames that say how to go on. A frame waits for a value, for
the end of a block, for the leave of the governor, or for a service.
-/

namespace DeskScript

inductive Signal where
  | leave
  | skip
  | back (v : Value)

inductive Raised where
  | error (e : ScriptError)
  /-- The error that aborted the run; it is never caught. -/
  | abort (e : ScriptError)
  | fault (f : Fault)
  /-- The thread was cancelled while it yielded. -/
  | interrupted

def Raised.ofFailure : Failure → Raised
  | .script e => .error e
  | .fault f => .fault f

inductive Ending where
  | completed (v : Value)
  | failed (e : ScriptError)
  | cancelled (e : ScriptError)
  | broken (f : Fault)

inductive Loop where
  | counted (i n : Nat)
  | conditional (i : Nat) (condition : Expr)
  | each (i : Nat) (items : List Value) (item : String) (index : Option String)

inductive After where
  | nothing
  | storeTruth (into : String) (scope : ScopeId)
  | storeText (into : String) (scope : ScopeId)
  | timeout

inductive Frame where
  -- a block
  | following (stmts : List Stmt) (scope : ScopeId)
  | located (span : Span)
  | entering (s : Stmt) (scope : ScopeId)
  -- statements that wait for a value
  | assignVar (name : String) (scope : ScopeId)
  | assignBase (key value : Expr) (scope : ScopeId)
  | assignKey (base : Value) (value : Expr) (scope : ScopeId)
  | assignValue (base key : Value)
  | print
  | branch (yes : Block Stmt) (no : Option (Block Stmt)) (scope : ScopeId)
  | count (body : Block Stmt) (scope : ScopeId)
  | items (item : String) (index : Option String) (body : Block Stmt) (scope : ScopeId)
  | giveBack
  | operands (request : Command Expr) (given : List Value) (left : List Expr) (scope : ScopeId)
  | subscribe (body : Block Stmt) (scope : ScopeId)
  | emitName (payload : Option Expr) (scope : ScopeId)
  | emitPayload (name : String)
  | discard
  -- loops: before a turn, testing the condition, in a turn
  | turn (loop : Loop) (body : Block Stmt) (scope : ScopeId)
  | test (i : Nat) (condition : Expr) (body : Block Stmt) (scope : ScopeId)
  | round (loop : Loop) (body : Block Stmt) (scope : ScopeId)
  -- blocks that are running
  | attempt (catchBlock : Block Stmt) (errorVar : Option String) (scope : ScopeId)
  | call (name : String)
  | handler
  | program
  -- expressions
  | left (op : BinaryOp) (right : Expr) (scope : ScopeId)
  | right (op : BinaryOp) (left : Value)
  | logic (op : LogicOp) (right : Expr) (scope : ScopeId)
  | truth
  | unary (op : UnaryOp)
  | base (key : Expr) (scope : ScopeId)
  | key (base : Value)
  | arguments (name : String) (given : List Value) (left : List Expr) (scope : ScopeId)
  | elements (given : List Value) (left : List Expr) (scope : ScopeId)
  | entries (given : Dict Value) (key : String) (left : List (String × Expr)) (scope : ScopeId)
  -- services
  | collaborator (task : String) (after : After)
  | requested
  | clearing
  | closing (result : Value)

inductive Control where
  | statements (stmts : List Stmt) (scope : ScopeId)
  | perform (s : Stmt) (scope : ScopeId)
  | evaluate (e : Expr) (scope : ScopeId)
  | value (v : Value)
  | ended (signal : Option Signal)
  | raised (r : Raised)
  -- the governor's leave to go on
  | checkpoint
  | recheck
  | clear
  | passed
  -- services
  | request (work : Work)
  | resume (service : ServiceId) (releases : Bool)
  | replied (r : ServiceResult)
  -- the life of a thread
  | start
  | receive
  | settle (ending : Ending)
  | finished

structure Thread where
  control : Control := .start
  stack : List Frame := []

instance : Inhabited Thread := ⟨{}⟩

end DeskScript
