import DeskScript.Engine

set_option autoImplicit false

/-!
# Moments of a world

A world rests between two entries of its queue, and moves step by step within the slice of a thread. `Moment.Next` is one
move: of the world itself, or of whoever drives it from outside. `Reachable` moments follow from a world without runs.
-/

namespace DeskScript

namespace Run

def thread (r : Run) : Side → Thread
  | .main => r.main
  | .worker => r.worker

end Run

namespace World

def launch (w : World) (name : String) (program : Program) (limits : Limits) (startedAt : Time) (heap : Heap)
    (scopes : Scopes) : World :=
  let id := w.runs.size
  let w := w.addRun { id, name, program := some program, limits, startedAt, holds := w.holds, heap, scopes }
  { w with desk := w.desk.enqueue (.thread id .main), running := w.running.insert name id }

/-- What can be done to a world from outside. The tokens of a launched program need not come from a text. -/
inductive Driven : World → World → Prop
  | start (w : World) (l : Launch) : Driven w (w.start l).2
  | launch (w : World) (name : String) {tokens : List Token} {source : Option String} {program : Program}
      (h : parseTokens tokens source = .ok program) (limits : Limits) (startedAt : Time) (heap : Heap)
      (scopes : Scopes) : Driven w (w.launch name program limits startedAt heap scopes)
  | publish (w : World) (event : Event) : Driven w (w.publish event)
  | cancel (w : World) (id : RunId) : Driven w (w.cancel id)
  | answer (w : World) (p : Plain) : Driven w { w with desk := w.desk.answer p }
  | wait (w : World) (awaited : Option RunId) : Driven w { w with awaited }
  | turn (w : World) : Driven w { w with desk := w.desk.enqueue .controller }
  | configure (w : World) (config : Config) : Driven w { w with config }
  | listen (w : World) (pattern : String) {listener : Listener}
      (h : ∀ run body scope, listener ≠ .handler run body scope) :
      Driven w { w with desk := { w.desk with host := { w.desk.host with
        bus := (w.desk.host.bus.subscribe pattern listener).2 } } }
  | unlisten (w : World) (token : Nat) :
      Driven w { w with desk := { w.desk with host := { w.desk.host with bus := w.desk.host.bus.unsubscribe token } } }
  | host (w : World) {host : Host} (h : host.bus = w.desk.host.bus) : Driven w { w with desk := { w.desk with host } }

end World

/-- A world at rest, or within the slice of a thread, whose run and desk are then with the step. -/
inductive Moment where
  | resting (w : World)
  | within (w : World) (id : RunId) (side : Side) (s : Step)

namespace Moment

def run (id : RunId) : Moment → Run
  | resting w => w.run id
  | within w active _ s => if id = active then s.run else w.run id

def thread (id : RunId) (side : Side) : Moment → Thread
  | resting w => (w.run id).thread side
  | within w active working s =>
    if id = active then if side = working then s.thread else s.run.thread side else (w.run id).thread side

inductive Next : Moment → Moment → Prop
  | driven {w w' : World} (h : w.Driven w') : Next (resting w) (resting w')
  | waited {w : World} {desk : Desk} (hempty : w.desk.ready.pop? = none) (h : w.desk.waitForWorld? = some desk) :
      Next (resting w) (resting { w with desk })
  | entry {w : World} {entry : Ready} {ready : Queue Ready} (hpop : w.desk.ready.pop? = some (entry, ready))
      (h : ∀ id side, entry ≠ .thread id side) : Next (resting w) (resting ((w.dequeued ready).advance entry))
  | thread {w : World} {id : RunId} {side : Side} {ready : Queue Ready}
      (hpop : w.desk.ready.pop? = some (.thread id side, ready)) :
      Next (resting w) (within ((w.dequeued ready).setRun id default) id side
        ((w.run id).firstStep (w.dequeued ready).desk side))
  | step {w : World} {id : RunId} {side : Side} {s : Step} (h : s.pace = .go) :
      Next (within w id side s) (within w id side (Run.step side s.run s.desk s.thread))
  | rest {w : World} {id : RunId} {side : Side} {s : Step} (h : s.pace ≠ .go) :
      Next (within w id side s) (resting (w.rest id side s))

inductive Steps : Moment → Moment → Prop
  | refl (m : Moment) : Steps m m
  | next {m n o : Moment} (h : Next m n) (tail : Steps n o) : Steps m o

theorem steps_slice (w : World) (id : RunId) (side : Side) (n : Nat) (s : Step) :
    Steps (within w id side s) (within w id side (Run.slice side n s)) := by
  induction n generalizing s with
  | zero => exact .refl _
  | succ n ih =>
    rw [Run.slice]
    split
    · rename_i hgo
      exact .next (.step hgo) (ih _)
    · exact .refl _

inductive Reachable : Moment → Prop
  | fresh (host : Host) (config : Config) (holds : List Frame → Bool)
      (h : ∀ s ∈ host.bus.subscriptions, ∀ run body scope, s.listener ≠ .handler run body scope) :
      Reachable (resting { desk := { host }, config, holds })
  | next {m n : Moment} (h : Reachable m) (hn : Next m n) : Reachable n

theorem launched_reachable {host : Host} {config : Config} {holds : List Frame → Bool} {name : String}
    {program : Program} {limits : Limits} {startedAt : Time} {heap : Heap} {scopes : Scopes} (tokens : List Token)
    (hparse : parseTokens tokens none = .ok program)
    (hhost : ∀ s ∈ host.bus.subscriptions, ∀ run body scope, s.listener ≠ .handler run body scope) :
    Reachable (resting (({ desk := { host }, config, holds } : World).launch name program limits startedAt heap scopes)) :=
  .next (.fresh host config holds hhost) (.driven (.launch _ name hparse limits startedAt heap scopes))

theorem Reachable.steps {m n : Moment} (h : Reachable m) (hn : Steps m n) : Reachable n := by
  induction hn with
  | refl _ => exact h
  | next hnext _ ih => exact ih (h.next hnext)

end Moment

end DeskScript
