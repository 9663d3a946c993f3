import DeskScript.Builtin.Desk
import DeskScript.Queue

set_option autoImplicit false

/-!
# The desk

What all runs share: the host, the mailboxes of the runs, the services that threads wait for, and the queue of whatever
is ready to go on. A service works on behalf of one thread, step by step, until it is done; then its thread is ready.
-/

namespace DeskScript

inductive Side where
  | main | worker
  deriving DecidableEq

abbrev ServiceId := Nat

inductive Ready where
  | thread (run : RunId) (side : Side)
  | service (id : ServiceId)
  /-- The worker of a run has ended and its main thread is to hear of it. -/
  | gathered (run : RunId)
  /-- A run has ended and leaves the table of running scripts. -/
  | forget (run : RunId)
  /-- Whoever drives the desk from outside. -/
  | controller

inductive Work where
  | dialog (kind : DialogKind) (message default : String)
  | command (name : String) (args : Plain)
  | request (r : Request)
  | sleep (ms : Time)
  /-- Until no event handler is running. -/
  | idle
  /-- Until every delivered event has been handled. -/
  | join

inductive ServiceResult where
  | data (p : Plain)
  | value (v : Value)
  | failed (f : Failure)
  | interrupted

inductive Stage where
  | fresh
  | ticking (left : Nat) (answer : CommandAnswer) (args : Plain)
  | slept
  | parked
  | woken (r : Except Fault Plain)
  | done (r : ServiceResult)

structure Service where
  run : RunId
  side : Side
  work : Work
  stage : Stage := .fresh
  cancelled : Bool := false

instance : Inhabited Service := ⟨{ run := 0, side := .main, work := .idle }⟩

structure Mail where
  body : Block Stmt
  scope : ScopeId
  event : Event

structure Mailbox where
  mail : Queue Mail := {}
  /-- Events delivered and not yet handled to the end. -/
  unfinished : Nat := 0
  closed : Bool := false
  /-- The worker waits for mail. -/
  waiting : Bool := false
  joiners : List ServiceId := []
  deriving Inhabited

structure Desk where
  host : Host := {}
  boxes : Array Mailbox := #[]
  services : Array Service := #[]
  ready : Queue Ready := {}
  /-- Dialogs that wait for an answer from outside, oldest first. -/
  dialogs : List ServiceId := []
  /-- Services that wait for a point in time. -/
  timers : List (Time × ServiceId) := []
  /-- Answers typed at the terminal, delivered when nothing else is ready. -/
  typed : List (ServiceId × Except Fault Plain) := []

namespace Desk

def enqueue (d : Desk) (r : Ready) : Desk := { d with ready := d.ready.push r }

def box (d : Desk) (run : RunId) : Mailbox := d.boxes.getD run {}

def modifyBox (d : Desk) (run : RunId) (f : Mailbox → Mailbox) : Desk := { d with boxes := d.boxes.modify run f }

def service (d : Desk) (id : ServiceId) : Service := d.services.getD id default

def setStage (d : Desk) (id : ServiceId) (stage : Stage) : Desk :=
  { d with services := d.services.modify id fun s => { s with stage } }

def open_ (d : Desk) (run : RunId) (side : Side) (work : Work) : ServiceId × Desk :=
  let id := d.services.size
  (id, { d with services := d.services.push { run, side, work } }.enqueue (.service id))

def complete (d : Desk) (id : ServiceId) (r : ServiceResult) : Desk :=
  let s := d.service id
  (d.setStage id (.done r)).enqueue (.thread s.run s.side)

def wake (d : Desk) (id : ServiceId) (r : Except Fault Plain) : Desk :=
  match (d.service id).stage with
  | .parked => (d.setStage id (.woken r)).enqueue (.service id)
  | _ => d

def wakeAll (d : Desk) (ids : List ServiceId) : Desk := ids.foldl (fun d id => d.wake id (.ok .null)) d

/-- Interrupts a service that is not done: it ends at its next step, and a parked one gets that step. -/
def interrupt (d : Desk) (id : ServiceId) : Desk :=
  match (d.service id).stage with
  | .done _ => d
  | .parked => ({ d with services := d.services.modify id fun s =>
      { s with cancelled := true, stage := .woken (.ok .null) } }).enqueue (.service id)
  | _ => { d with services := d.services.modify id fun s => { s with cancelled := true } }

def interruptAll (d : Desk) (ids : List ServiceId) : Desk := ids.foldl interrupt d

def post (d : Desk) (run : RunId) (mail : Mail) : Desk :=
  let box := d.box run
  if box.closed then d
  else
    let d := d.modifyBox run fun b =>
      { b with mail := b.mail.push mail, unfinished := b.unfinished + 1, waiting := false }
    if box.waiting then d.enqueue (.thread run .worker) else d

def messageLine? (lead : String) (payload : Plain) : Option String :=
  match payload with
  | .dict entries => (Dict.get? entries "message").map fun m => lead ++ m.printed ++ "\n"
  | _ => none

def deliver (event : Event) (d : Desk) : Listener → Desk
  | .handler run body scope => d.post run { body, scope, event }
  | .recorder => { d with host := { d.host with received := d.host.received.push event } }
  | .printer lead =>
    match messageLine? lead event.payload with
    | some line => { d with host := { d.host with console := d.host.console.print line } }
    | none => d

def publish (d : Desk) (event : Event) : Desk :=
  let (audience, bus) := d.host.bus.publish event
  let d := { d with host := { d.host with bus, published := d.host.published.push event } }
  audience.foldl (deliver event) d

/-- An event of a run has been handled; when it was the last, those who wait for that go on. -/
def handled (d : Desk) (run : RunId) : Desk :=
  let left := (d.box run).unfinished - 1
  let joiners := (d.box run).joiners
  if left = 0 then
    (d.modifyBox run fun b => { b with unfinished := 0, joiners := [] }).wakeAll joiners
  else d.modifyBox run fun b => { b with unfinished := left }

def answer (d : Desk) (p : Plain) : Desk :=
  match d.dialogs.dropWhile fun id => !((d.service id).stage matches .parked) with
  | [] => { d with dialogs := [] }
  | id :: rest => { d with dialogs := rest }.wake id (.ok p)

def firstTimer? (d : Desk) : Option (Time × ServiceId) :=
  d.timers.foldl (fun best t =>
    match best with
    | none => some t
    | some b => if t.1 < b.1 then some t else some b) none

/-- When nothing is ready: a typed answer arrives, or time passes until a timer is due. -/
def waitForWorld? (d : Desk) : Option Desk :=
  match d.typed with
  | (id, r) :: rest => some ({ d with typed := rest }.wake id r)
  | [] =>
    match d.firstTimer? with
    | none => none
    | some (due, id) =>
      let clock := { d.host.clock with seconds := if d.host.clock.seconds < due then due else d.host.clock.seconds }
      some ({ d with timers := d.timers.filter (·.2 ≠ id), host := { d.host with clock } }.wake id (.ok .null))

end Desk

end DeskScript
