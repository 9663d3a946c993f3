import DeskScript.Config.Basic
import DeskScript.Machine.Thread

set_option autoImplicit false

/-!
# Runs

Everything one script owns while it runs: values, scopes, functions, output, its threads, and the governor that keeps
its budgets, cancellation, and the rule that the main thread starts nothing while an event handler is busy.
-/

namespace DeskScript

structure Routine where
  name : String
  params : List String
  body : Block Stmt
  closure : ScopeId

structure Governor where
  /-- Statements and loop turns begun so far. -/
  begun : Nat := 0
  cancelled : Bool := false
  aborted : Option ScriptError := none
  /-- Services that threads of the run wait for. -/
  pending : List ServiceId := []
  /-- A handler has been started and not finished. -/
  handling : Bool := false
  /-- No handler is busy: none is running, or the running one waits for a service. -/
  idle : Bool := true
  /-- Services that wait for `idle`. -/
  waiters : List ServiceId := []
  deriving Inhabited

structure Run where
  id : RunId
  name : String
  /-- Nothing if the source could not be parsed. -/
  program : Option Program
  limits : Limits := {}
  startedAt : Time := 0
  /-- Whether the stack of the interpreter has room for so many frames. -/
  holds : List Frame → Bool := fun _ => true
  heap : Heap := {}
  scopes : Scopes := .root
  functions : Dict Routine := []
  output : Array String := #[]
  callDepth : Nat := 0
  subscriptions : List Nat := []
  governor : Governor := {}
  main : Thread := {}
  worker : Thread := {}
  /-- The worker is to be interrupted at its next step. -/
  workerCancelled : Bool := false
  /-- The main thread waits for the end of the worker. -/
  gathering : Bool := false
  ending : Option Ending := none

instance : Inhabited Run := ⟨{ id := 0, name := "", program := none }⟩

namespace Run

def elapsed (r : Run) (now : Time) : Time := now - r.startedAt

def budget (r : Run) : Time := .rounded r.limits.timeoutSeconds

def remaining (r : Run) (now : Time) : Time := (r.budget - r.elapsed now).positive

def timeoutError (r : Run) : ScriptError := { cause := .timeout r.limits.timeoutSeconds }

/-- What forbids a run to go on: an abort, then cancellation, then the time limit. -/
def objection? (r : Run) (now : Time) : Option Raised :=
  match r.governor.aborted with
  | some e => some (.abort e)
  | none =>
    if r.governor.cancelled then some (.error { cause := .cancelled })
    else if r.elapsed now ≥ r.budget then some (.error r.timeoutError)
    else none

def interruption (r : Run) : Raised :=
  match r.governor.aborted with
  | some e => .abort e
  | none => if r.governor.cancelled then .error { cause := .cancelled } else .interrupted

/-- Whether no handler is in the way of a thread: the worker runs the handler itself. -/
def isClear (r : Run) (side : Side) : Bool := side = .worker || r.governor.idle

def becomeIdle (r : Run) (d : Desk) : Run × Desk :=
  if r.governor.idle then (r, d)
  else
    ({ r with governor := { r.governor with idle := true, waiters := [] } }, d.wakeAll r.governor.waiters)

def handlerStarted (r : Run) : Run := { r with governor := { r.governor with handling := true, idle := false } }

def handlerFinished (r : Run) (d : Desk) : Run × Desk :=
  let (r, d) := { r with governor := { r.governor with handling := false } }.becomeIdle d
  (r, d.handled r.id)

def cancelled (r : Run) (d : Desk) : Run × Desk :=
  ({ r with governor := { r.governor with cancelled := true } }, d.interruptAll r.governor.pending)

/-- Fails the run because a handler failed; the first failure counts, and none after cancellation. -/
def aborted (r : Run) (d : Desk) (e : ScriptError) : Run × Desk :=
  let aborted := if r.governor.cancelled then r.governor.aborted else r.governor.aborted.or (some e)
  ({ r with governor := { r.governor with aborted } }, d.interruptAll r.governor.pending)

def revoke (r : Run) (d : Desk) : Run × Desk :=
  let d := { d with host := { d.host with bus := d.host.bus.unsubscribeAll r.subscriptions } }
  ({ r with subscriptions := [] }, d)

/-- Attaches a place to an error that leaves a statement; cancellation has none. -/
def locate (r : Run) (span : Span) (e : ScriptError) : ScriptError :=
  if e.cause.category = .cancelled then e else e.locate span (r.program.bind fun p => p.line? span.start.line)

def extend (r : Run) (parent : ScopeId) (label : String) (boundary : Bool) (bindings : Dict Value) : ScopeId × Run :=
  let (id, scopes) := r.scopes.extend parent label boundary bindings
  (id, { r with scopes })

def assign (r : Run) (scope : ScopeId) (name : String) (v : Value) : Run :=
  { r with scopes := r.scopes.assign scope name v }

def define (r : Run) (name : String) (params : List String) (body : Block Stmt) (closure : ScopeId) : Run :=
  { r with functions := r.functions.insert name { name, params, body, closure } }

/-- Functions at the top of a program can be called before their definition. -/
def hoist (r : Run) (stmts : List Stmt) : Run :=
  stmts.foldl (fun r s =>
    match s with
    | .define _ name params body => r.define name params body 0
    | _ => r) r

def report? (r : Run) : Ending → Option Event
  | .completed v => some ⟨"script:complete", .dict [("scriptId", .str r.name), ("result", r.heap.plain v)]⟩
  | .failed e | .cancelled e =>
    some ⟨"script:error", .dict
      [("scriptId", .str r.name), ("error", .str e.message), ("kind", .str e.cause.category.kindName),
       ("line", .int (e.line?.getD 0))]⟩
  | .broken _ => none

end Run

end DeskScript
