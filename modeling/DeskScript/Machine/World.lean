import DeskScript.Machine.Service
import DeskScript.Machine.Step

set_option autoImplicit false

/-!
# The world

All runs at one desk. What is ready goes on in order: a thread for one slice, a service for one step. Whoever drives the
world from outside, the controller, takes part as one more entry of the queue.
-/

namespace DeskScript

/-- More steps than any run takes. -/
def ample : Nat := Nat.pow 2 60

structure World where
  desk : Desk := {}
  /-- What the stack of the interpreter has room for. -/
  holds : List Frame → Bool := fun _ => true
  runs : Array Run := #[]
  /-- The runs that have not been forgotten, by name. -/
  running : Dict RunId := []
  config : Config := {}
  /-- The number in the next name given to a script without one. -/
  nextName : Nat := 1
  /-- The run whose end the controller waits for. -/
  awaited : Option RunId := none

def Run.firstStep (r : Run) (d : Desk) : Side → Step
  | .main => step .main r d r.main
  | .worker => if r.workerCancelled then r.interruptWorker d r.worker else step .worker r d r.worker

def Run.advance (r : Run) (d : Desk) (side : Side) : Step := slice side ample (r.firstStep d side)

def Step.store (s : Step) (side : Side) : Run × Desk :=
  let run := match side with
    | .main => { s.run with main := s.thread }
    | .worker => { s.run with worker := s.thread }
  (run, if s.pace = .yield then s.desk.enqueue (.thread s.run.id side) else s.desk)

namespace World

def run (w : World) (id : RunId) : Run := w.runs.getD id default

def setRun (w : World) (id : RunId) (r : Run) : World := { w with runs := w.runs.setIfInBounds id r }

/-- A run has ended: it is to be forgotten, and a controller that waits for it is ready. -/
def concluded (w : World) (id : RunId) : World :=
  let desk := w.desk.enqueue (.forget id)
  if w.awaited = some id then { w with desk := desk.enqueue .controller, awaited := none } else { w with desk }

def rest (w : World) (id : RunId) (side : Side) (s : Step) : World :=
  let w' := { w with desk := (s.store side).2 }.setRun id (s.store side).1
  if s.pace = .finished && side = .main then w'.concluded id else w'

def dequeued (w : World) (ready : Queue Ready) : World := { w with desk := { w.desk with ready } }

def advance (w : World) (entry : Ready) : World :=
  match entry with
  | .thread id side =>
    let run := w.run id
    let w := w.setRun id default
    w.rest id side (run.advance w.desk side)
  | .service id =>
    let owner := (w.desk.service id).run
    let run := w.run owner
    let w := w.setRun owner default
    let (run, desk) := run.stepService w.desk id
    { w with desk }.setRun owner run
  | .gathered id => { w with desk := w.desk.enqueue (.thread id .main) }
  | .forget id => { w with running := w.running.erase (w.run id).name }
  | .controller => w

/-- Lets everything go on until the controller's turn, or until nothing is ready and nothing can become so. -/
def drain : Nat → World → World
  | 0, w => w
  | fuel + 1, w =>
    match w.desk.ready.pop? with
    | some (.controller, ready) => w.dequeued ready
    | some (entry, ready) => drain fuel ((w.dequeued ready).advance entry)
    | none =>
      match w.desk.waitForWorld? with
      | some desk => drain fuel { w with desk }
      | none => w

def tick (w : World) : World := drain ample { w with desk := w.desk.enqueue .controller }

def ticks (w : World) (n : Nat) : World := n.repeat tick w

def waitFor (w : World) (id : RunId) : World :=
  if (w.run id).ending.isSome then w else drain ample { w with awaited := some id }

def publish (w : World) (event : Event) : World := { w with desk := w.desk.publish event }

end World

end DeskScript
