import DeskScript.Proofs.Machine.Budget
import DeskScript.Proofs.Machine.Rousing

set_option autoImplicit false

/-!
# Waits beyond the budget

A wait that asks for more than is left sleeps for what is left. The budget is then used up, and the run fails for that,
whatever is around the wait. Main statements: `Course.Paced.fails_of_asks`, `waits_within_the_budget`.
-/

namespace DeskScript

/-- The thread carries out a wait, of the usual length or of the length that a value says. -/
inductive Thread.AsksToWait : Option Value → Thread → Prop
  | usual (span : Span) (scope : ScopeId) (stack : List Frame) :
      AsksToWait none ⟨.perform (.command span (.wait none)) scope, stack⟩
  | timed (duration : Expr) (v : Value) (scope : ScopeId) (stack : List Frame) :
      AsksToWait (some v) ⟨.value v, .operands (.wait (some duration)) [] [] scope :: stack⟩

theorem Thread.AsksToWait.inner {duration : Option Value} {t : Thread} (h : t.AsksToWait duration) :
    t.control.atRest = false := by
  cases h with
  | usual | timed => rfl

def Frame.last : Frame := .collaborator "wait" .timeout

namespace Run

variable {r : Run} {d : Desk} {t : Thread} {service : ServiceId}

/-- A wait that is longer than the budget is cut short. -/
theorem step_asksToWait {duration : Option Value} {ms : Float} (h : t.AsksToWait duration)
    (hms : r.waitMillis duration = .ok ms) (hlong : .rounded ms > (r.remaining d.host.clock.seconds).millis) :
    ∃ stack, (step .main r d t).thread =
      ⟨.request (.sleep (r.remaining d.host.clock.seconds).millis), .last :: stack⟩ := by
  cases h with
  | usual span scope stack =>
    refine ⟨stack, ?_⟩
    simp only [step, perform, Command.operands, List.map_nil, evaluateOperands, List.reverse_nil, Command.fill?,
      runCommand, command, hms, waitFor, if_pos hlong]
    rfl
  | timed duration v scope stack =>
    refine ⟨stack, ?_⟩
    simp only [step, giveValue, evaluateOperands, List.reverse_singleton, Command.fill?, runCommand, command, hms,
      waitFor, if_pos hlong]
    rfl

theorem request_opens (h : r.objection? d.host.clock.seconds = none) (work : Work) (stack : List Frame) :
    (r.request d .main work stack).thread = ⟨.resume d.services.size false, stack⟩ ∧
      (r.request d .main work stack).desk.service d.services.size = { run := r.id, side := .main, work } := by
  simp only [request, h]
  exact ⟨rfl, (d.service_open r.id .main work d.services.size).trans (if_pos rfl)⟩

/-- A service that has slept is done with its next step. -/
theorem stepService_slept (hstage : (d.service service).stage = .slept) (hcalm : (d.service service).cancelled = false) :
    ((r.stepService d service).2.service service).stage = .done (.data .null) := by
  have hsize : service < d.services.size := by
    rw [← Nat.not_le]
    intro habsent
    rw [Desk.service_absent habsent] at hstage
    cases hstage
  simp only [stepService, hstage, hcalm]
  exact congrArg Service.stage ((d.service_modify service service _).trans (if_pos ⟨rfl, hsize⟩))

theorem stepService_done {result : ServiceResult} (hstage : (d.service service).stage = .done result) :
    (r.stepService d service).2 = d := by
  simp only [stepService, hstage]

theorem stepService_sleeps {ms : Time} (hwork : (d.service service).work = .sleep ms) (hfresh : (d.service service).stage = .fresh)
    (hcalm : (d.service service).cancelled = false) (hstepped : d.host.clock.mode = .stepped) :
    (r.stepService d service).2.host.clock = d.host.clock.after ms ∧
      ((r.stepService d service).2.service service).stage = .slept := by
  simp only [stepService, hfresh, hcalm, hwork, beginService, Desk.beginSleep, hstepped]
  exact ⟨rfl, congrArg Service.stage ((d.service_modify service service _).trans (if_pos ⟨rfl, Desk.lt_of_sleep hwork⟩))⟩

end Run

namespace Moment

variable {m n : Moment} {id : RunId} {service : ServiceId} {ms : Time} {stack : List Frame}

theorem Move.acts_of_inner {side : Side} (hn : Move m n) (hm : m.Sound)
    (hinner : (m.thread id side).control.atRest = false) : Acts id side m n := by
  obtain ⟨w, s, rfl, hpace⟩ := hm.within_of_inner hinner
  rw [hn.eq_follow hpace, follow, if_pos hpace]
  exact .step hpace

def Spent (id : RunId) (m : Moment) : Prop := (m.elapsed id).extent = (m.run id).budget.extent

def Expires (id : RunId) (ms : Time) (m : Moment) : Prop :=
  (m.elapsed id).extent.add ms.span = (m.run id).budget.extent

/-- The clock stands still while the main thread goes on. -/
theorem KeepsTime.still (hkeeps : KeepsTime id m n) (hm : OnTime id m)
    (hinner : (m.thread id .main).control.atRest = false) : n.desk.host.clock = m.desk.host.clock := by
  refine (hkeeps.cases hm.possible hm.size).resolve_right fun ⟨service, ms, hsleeps⟩ => ?_
  rw [hsleeps.rests .main] at hinner
  cases hinner

theorem OnTime.elapsed_still (hm : OnTime id m) (hn : Move m n) (hclock : n.desk.host.clock = m.desk.host.clock) :
    n.elapsed id = m.elapsed id ∧ (n.run id).budget = (m.run id).budget :=
  ⟨hn.elapsed_eq hm.possible hm.size hclock, (hn.terms hm.possible hm.size).budget⟩

theorem Spent.still (h : Spent id m) (hm : OnTime id m) (hn : Move m n) (hclock : n.desk.host.clock = m.desk.host.clock) :
    Spent id n := by
  obtain ⟨helapsed, hbudget⟩ := hm.elapsed_still hn hclock
  rw [Spent, helapsed, hbudget]
  exact h

theorem Expires.still (h : Expires id ms m) (hm : OnTime id m) (hn : Move m n)
    (hclock : n.desk.host.clock = m.desk.host.clock) : Expires id ms n := by
  obtain ⟨helapsed, hbudget⟩ := hm.elapsed_still hn hclock
  rw [Expires, helapsed, hbudget]
  exact h

theorem Spent.move (h : Spent id m) (hm : OnTime id m) (hn : Move m n) (hkeeps : KeepsTime id m n) (hnext : OnTime id n) :
    Spent id n := by
  rcases hkeeps.cases hm.possible hm.size with hclock | ⟨service, ms, hsleeps⟩
  · exact h.still hm hn hclock
  have helapsed := hsleeps.elapsed hm.possible hm.size hn hm.ideal
  have hbudget := (hn.terms hm.possible hm.size).budget
  refine Extent.le_antisymm (hnext.ideal.elapsed_le.1 hnext.within.elapsed) ?_
  rw [hbudget, helapsed, ← h]
  exact Time.le_add_span _ ms

structure Sleeping (id : RunId) (service : ServiceId) (ms : Time) (stack : List Frame) (m : Moment) : Prop where
  thread : m.thread id .main = ⟨.resume service false, .last :: stack⟩
  work : (m.desk.service service).work = .sleep ms
  fresh : (m.desk.service service).stage = .fresh
  expires : Expires id ms m

structure Waited (id : RunId) (service : ServiceId) (stage : Stage) (stack : List Frame) (m : Moment) : Prop where
  thread : m.thread id .main = ⟨.resume service false, .last :: stack⟩
  stage : (m.desk.service service).stage = stage
  spent : Spent id m

/-- The service that a main thread waits for is open until it is done. -/
theorem OnTime.open (hm : OnTime id m) (hthread : m.thread id .main = ⟨.resume service false, .last :: stack⟩)
    (hstage : (m.desk.service service).stage.isDone = false) : Open id service m := by
  obtain ⟨-, hsize, hrun, hside⟩ := (hm.possible.heeding hm.size).opened .main service false (by rw [hthread])
  refine ⟨hsize, ?_⟩
  rw [Service.summons, hrun, hside, hstage]
  simp

/-- No service of a run is interrupted that nothing stops. -/
theorem OnTime.calm (hm : OnTime id m) (hcancelled : (m.run id).governor.cancelled = false)
    (howner : (m.desk.service service).run = id) : (m.desk.service service).cancelled = false := by
  rw [← Bool.not_eq_true]
  intro hinterrupted
  have hstopped := hm.possible.books.cancelled service hinterrupted
  rw [howner, Governor.isStopped, hcancelled, (hm.possible.solitary hm.size hm.handlerless).aborted] at hstopped
  cases hstopped

/-- A wait that is too long asks for a sleep that is over when the budget is. -/
theorem OnTime.asks (hm : OnTime id m) (hn : Move m n) (hkeeps : KeepsTime id m n) {duration : Option Value} {ms : Float}
    (hasks : (m.thread id .main).AsksToWait duration) (hms : (m.run id).waitMillis duration = .ok ms)
    (hlong : .rounded ms > ((m.run id).remaining m.desk.host.clock.seconds).millis) :
    ∃ stack left, n.thread id .main = ⟨.request (.sleep left), .last :: stack⟩ ∧ Expires id left n := by
  have hacts := hn.acts_of_inner hm.possible.sound hasks.inner
  obtain ⟨ready, hat, -⟩ := hacts.main_step hm.possible.sound
  obtain ⟨stack, hthread⟩ := Run.step_asksToWait (d := { m.desk with ready }) hasks hms hlong
  have hexpires : Expires id ((m.run id).remaining m.desk.host.clock.seconds).millis m :=
    hm.ideal.add_remaining hm.within.elapsed
  exact ⟨stack, _, hat.thread.trans hthread, hexpires.still hm hn (hkeeps.still hm hasks.inner)⟩

/-- What is asked for is opened, unless the budget is used up already. -/
theorem OnTime.opens (hm : OnTime id m) (hn : Move m n) (hkeeps : KeepsTime id m n)
    (hcancelled : (m.run id).governor.cancelled = false)
    (hthread : m.thread id .main = ⟨.request (.sleep ms), .last :: stack⟩) (hexpires : Expires id ms m) :
    (n.thread id .main = ⟨.raised (.error (m.run id).timeoutError), .last :: stack⟩ ∧ Spent id n) ∨
      ∃ service, Sleeping id service ms stack n := by
  have hinner : (m.thread id .main).control.atRest = false := by
    rw [hthread]
    rfl
  have hclock := hkeeps.still hm hinner
  obtain ⟨ready, hat, -⟩ := (hn.acts_of_inner hm.possible.sound hinner).main_step hm.possible.sound
  rw [hthread] at hat
  have haborted := (hm.possible.solitary hm.size hm.handlerless).aborted
  by_cases hover : (m.run id).elapsed m.desk.host.clock.seconds ≥ (m.run id).budget
  · have hobjects : (m.run id).objection? m.desk.host.clock.seconds = some (.error (m.run id).timeoutError) := by
      simp only [Run.objection?, haborted, hcancelled, Bool.false_eq_true, if_false, if_pos hover]
    left
    refine ⟨?_, ?_⟩
    · rw [hat.thread]
      simp only [Run.step, Run.request, hobjects]
      rfl
    · have hwithin := hm.ideal.elapsed_le.1 hm.within.elapsed
      exact Spent.still (Extent.le_antisymm hwithin (hm.ideal.le_elapsed.1 hover)) hm hn hclock
  · have hopens : (m.run id).objection? m.desk.host.clock.seconds = none := by
      simp only [Run.objection?, haborted, hcancelled, Bool.false_eq_true, if_false, if_neg hover]
    obtain ⟨hwaits, hnew⟩ := Run.request_opens (d := { m.desk with ready }) hopens (.sleep ms) (.last :: stack)
    right
    refine ⟨m.desk.services.size, hat.thread.trans hwaits, ?_, ?_, hexpires.still hm hn hclock⟩
    · rw [hat.desk]
      exact congrArg Service.work hnew
    · rw [hat.desk]
      exact congrArg Service.stage hnew

/-- The main thread does not stir while its service is open. -/
theorem OnTime.stays (hm : OnTime id m) (hn : Move m n)
    (hthread : m.thread id .main = ⟨.resume service false, .last :: stack⟩)
    (hstage : (m.desk.service service).stage.isDone = false) : n.thread id .main = m.thread id .main :=
  ((hn.main_cases hm.possible hm.size).resolve_left
    fun hacts => hacts.none_open hm.possible service (hm.open hthread hstage)).1

theorem OnTime.owner (hm : OnTime id m) (hthread : m.thread id .main = ⟨.resume service false, .last :: stack⟩) :
    service < m.desk.services.size ∧ (m.desk.service service).run = id := by
  obtain ⟨-, hsize, hrun, -⟩ := (hm.possible.heeding hm.size).opened .main service false (by rw [hthread])
  exact ⟨hsize, hrun⟩

/-- While the sleep has not begun, none of the run has. -/
theorem Sleeping.move (h : Sleeping id service ms stack m) (hm : OnTime id m) (hn : Move m n) (hkeeps : KeepsTime id m n)
    (hfresh : (n.desk.service service).stage = .fresh) : Sleeping id service ms stack n := by
  have hopen := hm.open h.thread (by rw [h.fresh]; rfl)
  have hclock : n.desk.host.clock = m.desk.host.clock := by
    refine (hkeeps.cases hm.possible hm.size).resolve_right fun ⟨other, left, hsleeps⟩ => ?_
    have hother := hm.possible.services_main (Desk.lt_of_sleep hsleeps.work) (hsleeps.owner ▸ hm.handlerless)
    have hother := fresh_open (Desk.lt_of_sleep hsleeps.work) hsleeps.owner hother hsleeps.fresh
    rw [← hopen.unique hother hm.possible hm.size, hsleeps.slept] at hfresh
    cases hfresh
  refine ⟨(hm.stays hn h.thread (by rw [h.fresh]; rfl)).trans h.thread, ?_, hfresh, h.expires.still hm hn hclock⟩
  exact (hn.service hm.possible hopen.1).2.work.trans h.work

theorem Sleeping.taken (h : Sleeping id service ms stack m) (hm : OnTime id m) (hn : Move m n)
    (hcancelled : (m.run id).governor.cancelled = false) (htakes : Takes (.service service) m n) :
    Waited id service .slept stack n := by
  obtain ⟨-, howner⟩ := hm.owner h.thread
  obtain ⟨r, ready, hdesk⟩ := htakes.served
  obtain ⟨hclock, hslept⟩ := @Run.stepService_sleeps r { m.desk with ready } service ms h.work h.fresh
    (hm.calm hcancelled howner) hm.stepped
  have hsleeps : Sleeps id service ms m n := ⟨howner, h.work, h.fresh, htakes, hdesk ▸ hclock, hdesk ▸ hslept,
    fun side => (htakes.apart hm.possible hm.size side).1, fun side => (htakes.apart hm.possible hm.size side).2⟩
  refine ⟨(hsleeps.threads .main).trans h.thread, hsleeps.slept, ?_⟩
  rw [Spent, hsleeps.elapsed hm.possible hm.size hn hm.ideal, (hn.terms hm.possible hm.size).budget]
  exact h.expires

/-- A main thread that waits goes on doing so until it acts. -/
theorem Waited.move {stage stage' : Stage} (h : Waited id service stage stack m) (hm : OnTime id m) (hn : Move m n)
    (hkeeps : KeepsTime id m n) (hnext : OnTime id n) (hacts : ¬Acts id .main m n)
    (hstage : (n.desk.service service).stage = stage') : Waited id service stage' stack n :=
  ⟨((hn.main_cases hm.possible hm.size).resolve_left hacts).1.trans h.thread, hstage, h.spent.move hm hn hkeeps hnext⟩

structure Answered (id : RunId) (stack : List Frame) (m : Moment) : Prop where
  thread : m.thread id .main = ⟨.replied (.data .null), .last :: stack⟩
  spent : Spent id m

/-- A main thread whose service is done goes on with its answer. -/
theorem Waited.answered (h : Waited id service (.done (.data .null)) stack m) (hm : OnTime id m) (hn : Move m n)
    (hkeeps : KeepsTime id m n) (hnext : OnTime id n) (hacts : Acts id .main m n) : Answered id stack n := by
  obtain ⟨ready, hat, -⟩ := hacts.main_step hm.possible.sound
  refine ⟨?_, h.spent.move hm hn hkeeps hnext⟩
  have hstage : ({ m.desk with ready } : Desk).service service = m.desk.service service := rfl
  rw [hat.thread, h.thread]
  simp only [Run.step, Run.resume, hstage, h.stage]
  rfl

/-- The answer to a last wait is the error of the budget. -/
theorem Answered.raises (h : Answered id stack m) (hm : OnTime id m) (hn : Move m n) (hkeeps : KeepsTime id m n)
    (hnext : OnTime id n) : n.thread id .main = ⟨.raised (.error (m.run id).timeoutError), stack⟩ ∧ Spent id n := by
  have hinner : (m.thread id .main).control.atRest = false := by
    rw [h.thread]
    rfl
  obtain ⟨ready, hat, -⟩ := (hn.acts_of_inner hm.possible.sound hinner).main_step hm.possible.sound
  refine ⟨?_, h.spent.move hm hn hkeeps hnext⟩
  rw [hat.thread, h.thread]
  rfl

/-- An error of the main thread that nothing catches is what its run settles on, when it has left every frame. -/
theorem Possible.escapes {e : Raised} (hm : Possible m) (hid : id < m.size)
    (hthread : m.thread id .main = ⟨.raised e, stack⟩) (hpasses : e.passes = true) : ∃ e', e.Located e' ∧
      (∀ k < stack.length, ∃ w s, m.after k = within w id .main s ∧ s.pace = .go) ∧
        (m.after stack.length).Settles id (Run.endingOf e') := by
  obtain ⟨w, frames, ground, hwithin, rfl, hground, hof, hframes⟩ := hm.raised hid hthread
  have hlength : (frames ++ [ground]).length = frames.length + 1 := by rw [List.length_append, List.length_singleton]
  have hafter {k : Nat} (hk : k ≤ frames.length) : ∃ e' depth, e.Located e' ∧ m.after k = .within w id .main
      (.raise { m.run id with callDepth := depth } m.desk e' ((frames ++ [ground]).drop k)) := by
    have htake := @after_raised_take id .main w (m.run id) m.desk e frames [ground] hframes hpasses k hk
    rwa [← hwithin] at htake
  obtain ⟨e', depth, hlocated, hmoment⟩ := hafter (Nat.le_refl _)
  rw [List.drop_left] at hmoment
  refine ⟨e', hlocated, fun k hk => ?_, ?_⟩
  · obtain ⟨e'', depth, -, hmoment⟩ := hafter (Nat.le_of_lt_succ (Nat.lt_of_lt_of_eq hk hlength))
    exact ⟨w, _, hmoment, rfl⟩
  · rw [hlength, after, hmoment]
    exact follow_main hground hof

end Moment

theorem Raised.Located.failed {e : ScriptError} {e' : Raised} (h : (Raised.error e).Located e')
    (hcategory : e.cause.category ≠ .cancelled) : ∃ error : ScriptError, error.cause = e.cause ∧
      Run.endingOf e' = .failed error := by
  cases h with
  | same => exact ⟨e, rfl, if_neg hcategory⟩
  | error _ span line _ => exact ⟨{ e with span := some span, sourceLine := line }, rfl, if_neg hcategory⟩

namespace Course

variable {c : Course} {id : RunId} {service : ServiceId} {n i : Nat} {stack : List Frame}

/-- From then on only the run moves the clock, and it is not cancelled before it is over. -/
structure Paced (c : Course) (id : RunId) (n : Nat) : Prop where
  keeps : ∀ i ≥ n, Moment.KeepsTime id (c.moment i) (c.moment (i + 1))
  uncancelled : ∀ i ≥ n, ((c.moment i).thread id .main).control.isOver = false →
    ((c.moment i).run id).governor.cancelled = false

/-- What goes on until something else holds is still so, or that has come to hold. -/
theorem holds_or {P Q : Moment → Prop} (hstep : ∀ i ≥ n, P (c.moment i) → P (c.moment (i + 1)) ∨ Q (c.moment (i + 1)))
    (h : P (c.moment n)) (hi : n ≤ i) : P (c.moment i) ∨ ∃ j ≥ n, Q (c.moment j) := by
  induction hi with
  | refl => exact .inl h
  | @step i hi ih =>
    rcases ih with hholds | hfound
    · exact (hstep i hi hholds).imp_right fun hq => ⟨i + 1, Nat.le_succ_of_le hi, hq⟩
    · exact .inr hfound

theorem moment_after {k : Nat} (hgo : ∀ j < k, ∃ w id side s, (c.moment n).after j = .within w id side s ∧ s.pace = .go) :
    c.moment (n + k) = (c.moment n).after k := by
  induction k with
  | zero => rfl
  | succ k ih =>
    have hbefore := ih fun j hj => hgo j (Nat.lt_succ_of_lt hj)
    obtain ⟨w, id, side, s, hwithin, hpace⟩ := hgo k (Nat.lt_succ_self k)
    have hmove := c.move (n + k)
    rw [hbefore, hwithin] at hmove
    exact (hmove.eq_follow hpace).trans (congrArg Moment.follow hwithin.symm)

namespace Paced

open Moment

theorem later (h : c.Paced id n) (hi : n ≤ i) : c.Paced id i :=
  ⟨fun j hj => h.keeps j (Nat.le_trans hi hj), fun j hj => h.uncancelled j (Nat.le_trans hi hj)⟩

theorem onTime (h : c.Paced id n) (hn : OnTime id (c.moment n)) (hi : n ≤ i) : OnTime id (c.moment i) := by
  induction hi with
  | refl => exact hn
  | @step i hi ih => exact ih.move (c.move i) (h.keeps i hi)

theorem spent (h : c.Paced id n) (hn : OnTime id (c.moment n)) (hspent : Spent id (c.moment n)) (hi : n ≤ i) :
    Spent id (c.moment i) := by
  induction hi with
  | refl => exact hspent
  | @step i hi ih =>
    exact ih.move (h.onTime hn hi) (c.move i) (h.keeps i hi) (h.onTime hn (Nat.le_succ_of_le hi))

theorem slept_of_sleeping (h : c.Paced id n) (hn : OnTime id (c.moment n)) {ms : Time}
    (hsleeping : Sleeping id service ms stack (c.moment n)) :
    ∃ i ≥ n, Waited id service .slept stack (c.moment i) := by
  have htaken (i : Nat) (hi : n ≤ i) (hsleeping : Sleeping id service ms stack (c.moment i))
      (htakes : Takes (.service service) (c.moment i) (c.moment (i + 1))) :
      Waited id service .slept stack (c.moment (i + 1)) := by
    refine hsleeping.taken (h.onTime hn hi) (c.move i) (h.uncancelled i hi ?_) htakes
    rw [hsleeping.thread]
    rfl
  have hstep (i : Nat) (hi : n ≤ i) (hsleeping : Sleeping id service ms stack (c.moment i)) :
      Sleeping id service ms stack (c.moment (i + 1)) ∨ Waited id service .slept stack (c.moment (i + 1)) := by
    have hot := h.onTime hn hi
    rcases (c.serving (hot.owner hsleeping.thread).1).stage with hsame | ⟨hparked, -⟩ | htakes
    · exact .inl (hsleeping.move hot (c.move i) (h.keeps i hi) (hsame.trans hsleeping.fresh))
    · rw [hsleeping.fresh] at hparked
      cases hparked
    · exact .inr (htaken i hi hsleeping htakes)
  obtain ⟨i, hi, -, htakes⟩ := service_taken (hn.owner hsleeping.thread).1 (by rw [hsleeping.fresh]; rfl)
  rcases holds_or hstep hsleeping hi with hstill | hfound
  · exact ⟨i + 1, Nat.le_succ_of_le hi, htaken i hi hstill htakes⟩
  · exact hfound

theorem done_of_slept (h : c.Paced id n) (hn : OnTime id (c.moment n))
    (hslept : Waited id service .slept stack (c.moment n)) :
    ∃ i ≥ n, Waited id service (.done (.data .null)) stack (c.moment i) := by
  have hstays (i : Nat) (hi : n ≤ i) (hslept : Waited id service .slept stack (c.moment i)) {stage : Stage}
      (hstage : ((c.moment (i + 1)).desk.service service).stage = stage) :
      Waited id service stage stack (c.moment (i + 1)) := by
    have hot := h.onTime hn hi
    exact hslept.move hot (c.move i) (h.keeps i hi) (h.onTime hn (Nat.le_succ_of_le hi))
      (fun hacts => hacts.none_open hot.possible service (hot.open hslept.thread (by rw [hslept.stage]; rfl))) hstage
  have htaken (i : Nat) (hi : n ≤ i) (hslept : Waited id service .slept stack (c.moment i))
      (htakes : Takes (.service service) (c.moment i) (c.moment (i + 1))) :
      Waited id service (.done (.data .null)) stack (c.moment (i + 1)) := by
    have hot := h.onTime hn hi
    have hcalm := hot.calm (h.uncancelled i hi (by rw [hslept.thread]; rfl)) (hot.owner hslept.thread).2
    obtain ⟨r, ready, hdesk⟩ := htakes.served
    refine hstays i hi hslept ?_
    rw [hdesk]
    exact @Run.stepService_slept r { (c.moment i).desk with ready } service hslept.stage hcalm
  have hstep (i : Nat) (hi : n ≤ i) (hslept : Waited id service .slept stack (c.moment i)) :
      Waited id service .slept stack (c.moment (i + 1)) ∨
        Waited id service (.done (.data .null)) stack (c.moment (i + 1)) := by
    rcases (c.serving ((h.onTime hn hi).owner hslept.thread).1).stage with hsame | ⟨hparked, -⟩ | htakes
    · exact .inl (hstays i hi hslept (hsame.trans hslept.stage))
    · rw [hslept.stage] at hparked
      cases hparked
    · exact .inr (htaken i hi hslept htakes)
  obtain ⟨i, hi, -, htakes⟩ := service_taken (hn.owner hslept.thread).1 (by rw [hslept.stage]; rfl)
  rcases holds_or hstep hslept hi with hstill | hfound
  · exact ⟨i + 1, Nat.le_succ_of_le hi, htaken i hi hstill htakes⟩
  · exact hfound

theorem answered_of_done (h : c.Paced id n) (hn : OnTime id (c.moment n))
    (hdone : Waited id service (.done (.data .null)) stack (c.moment n)) : ∃ i ≥ n, Answered id stack (c.moment i) := by
  have hacted (i : Nat) (hi : n ≤ i) (hdone : Waited id service (.done (.data .null)) stack (c.moment i))
      (hacts : Acts id .main (c.moment i) (c.moment (i + 1))) : Answered id stack (c.moment (i + 1)) :=
    hdone.answered (h.onTime hn hi) (c.move i) (h.keeps i hi) (h.onTime hn (Nat.le_succ_of_le hi)) hacts
  have hstep (i : Nat) (hi : n ≤ i) (hdone : Waited id service (.done (.data .null)) stack (c.moment i)) :
      Waited id service (.done (.data .null)) stack (c.moment (i + 1)) ∨ Answered id stack (c.moment (i + 1)) := by
    by_cases hacts : Acts id .main (c.moment i) (c.moment (i + 1))
    · exact .inr (hacted i hi hdone hacts)
    refine .inl (hdone.move (h.onTime hn hi) (c.move i) (h.keeps i hi) (h.onTime hn (Nat.le_succ_of_le hi)) hacts ?_)
    rcases (c.serving ((h.onTime hn hi).owner hdone.thread).1).stage with hsame | ⟨hparked, -⟩ | htakes
    · exact hsame.trans hdone.stage
    · rw [hdone.stage] at hparked
      cases hparked
    · obtain ⟨r, ready, hdesk⟩ := htakes.served
      rw [hdesk, Run.stepService_done (d := { (c.moment i).desk with ready }) hdone.stage]
      exact hdone.stage
  obtain ⟨i, hi, w, hrest⟩ := c.rests n
  rcases holds_or hstep hdone hi with hstill | hfound
  · have hwaits : ((c.moment i).thread id .main).Waits (c.moment i).desk id .main := waits hrest (h.onTime hn hi).size
    obtain ⟨-, -, -, -, hready⟩ := hwaits.resume service false (by rw [hstill.thread])
    obtain ⟨j, hj, htakes⟩ := taken (hready _ hstill.stage)
    have hj := Nat.le_trans hi hj
    rcases holds_or hstep hdone hj with hstill | hfound
    · exact ⟨j + 1, Nat.le_succ_of_le hj, hacted j hj hstill htakes.acts⟩
    · exact hfound
  · exact hfound

def Fails (c : Course) (id : RunId) (n : Nat) : Prop :=
  ∃ i ≥ n, ∃ e : ScriptError, e.cause = .timeout ((c.moment n).run id).limits.timeoutSeconds ∧
    ∀ j ≥ i, ((c.moment j).run id).ending = some (.failed e) ∧ Spent id (c.moment j)

theorem fails_of_raised (h : c.Paced id n) (hn : OnTime id (c.moment n))
    (hthread : (c.moment n).thread id .main = ⟨.raised (.error ((c.moment n).run id).timeoutError), stack⟩)
    (hspent : Spent id (c.moment n)) : Fails c id n := by
  obtain ⟨e', hlocated, hgo, hsettles⟩ := hn.possible.escapes hn.size hthread rfl
  obtain ⟨e, hcause, hending⟩ := hlocated.failed nofun
  rw [← moment_after fun k hk => (hgo k hk).imp fun w hw => ⟨id, .main, hw⟩, hending] at hsettles
  have hlater := h.onTime hn (Nat.le_add_right n stack.length)
  obtain ⟨i, hi, hends⟩ := ends_of_settles hlater.size hlater.handlerless hsettles
  have hi := Nat.le_trans (Nat.le_add_right n stack.length) hi
  exact ⟨i, hi, e, hcause, fun j hj => ⟨hends j hj, h.spent hn hspent (Nat.le_trans hi hj)⟩⟩

theorem Fails.before (h : Fails c id i) (hid : id < (c.moment n).size) (hi : n ≤ i) : Fails c id n := by
  obtain ⟨j, hj, e, hcause, hends⟩ := h
  rw [limits_eq hid hi] at hcause
  exact ⟨j, Nat.le_trans hi hj, e, hcause, hends⟩

theorem fails_of_sleeping (h : c.Paced id n) (hn : OnTime id (c.moment n)) {ms : Time}
    (hsleeping : Sleeping id service ms stack (c.moment n)) : Fails c id n := by
  obtain ⟨i, hi, hslept⟩ := h.slept_of_sleeping hn hsleeping
  obtain ⟨j, hj, hdone⟩ := (h.later hi).done_of_slept (h.onTime hn hi) hslept
  have hj := Nat.le_trans hi hj
  obtain ⟨k, hk, hanswered⟩ := (h.later hj).answered_of_done (h.onTime hn hj) hdone
  have hk := Nat.le_trans hj hk
  have hnext := Nat.le_succ_of_le hk
  have hot := h.onTime hn hk
  obtain ⟨hraised, hspent⟩ := hanswered.raises hot (c.move k) (h.keeps k hk) (h.onTime hn hnext)
  have hlimits : ((c.moment (k + 1)).run id).timeoutError = ((c.moment k).run id).timeoutError := by
    rw [Run.timeoutError, limits_eq hot.size (Nat.le_succ k)]
    rfl
  rw [← hlimits] at hraised
  exact ((h.later hnext).fails_of_raised (h.onTime hn hnext) hraised hspent).before hn.size hnext

/-- A wait for more than is left of the budget ends the run, when the budget is used up. -/
theorem fails_of_asks (h : c.Paced id n) (hn : OnTime id (c.moment n)) {duration : Option Value} {ms : Float}
    (hasks : ((c.moment n).thread id .main).AsksToWait duration)
    (hms : ((c.moment n).run id).waitMillis duration = .ok ms)
    (hlong : .rounded ms > (((c.moment n).run id).remaining (c.moment n).desk.host.clock.seconds).millis) :
    Fails c id n := by
  have hfirst := Nat.le_succ n
  have hsecond := Nat.le_succ_of_le hfirst
  have hot := h.onTime hn hfirst
  obtain ⟨stack, left, hthread, hexpires⟩ := hn.asks (c.move n) (h.keeps n (Nat.le_refl n)) hasks hms hlong
  have hcancelled := h.uncancelled (n + 1) hfirst (by rw [hthread]; rfl)
  refine Fails.before ?_ hn.size hsecond
  rcases hot.opens (c.move (n + 1)) (h.keeps (n + 1) hfirst) hcancelled hthread hexpires with
    ⟨hraised, hspent⟩ | ⟨service, hsleeping⟩
  · have hlimits : ((c.moment (n + 1 + 1)).run id).timeoutError = ((c.moment (n + 1)).run id).timeoutError := by
      rw [Run.timeoutError, limits_eq hot.size (Nat.le_succ (n + 1))]
      rfl
    rw [← hlimits] at hraised
    exact (h.later hsecond).fails_of_raised (h.onTime hn hsecond) hraised hspent
  · exact (h.later hsecond).fails_of_sleeping (h.onTime hn hsecond) hsleeping

end Paced

end Course

/-- A run without handlers stays within its budget, whatever that is, while an ideal clock moves only by its sleeps: its
time is never more than the budget, and less whenever it begins a statement. Wherever it asks to wait for longer than is
left, it fails with the error of the budget unless it is cancelled before, and its time is then the budget. -/
theorem waits_within_the_budget {l m : Moment} {id : RunId} (hstarts : Moment.Starts id l m) :
    (∀ n, Moment.Timely id m n → n.elapsed id ≤ (m.run id).budget) ∧
    (∀ n side s scope, Moment.Timely id m n → (n.thread id side).control = .perform s scope →
      n.elapsed id < (m.run id).budget) ∧
    ∀ (c : Course) (i : Nat) (duration : Option Value) (ms : Float), Moment.Timely id m (c.moment i) → c.Paced id i →
      ((c.moment i).thread id .main).AsksToWait duration → ((c.moment i).run id).waitMillis duration = .ok ms →
      .rounded ms > (((c.moment i).run id).remaining (c.moment i).desk.host.clock.seconds).millis →
      ∃ j ≥ i, ∃ e : ScriptError, e.cause = .timeout (m.run id).limits.timeoutSeconds ∧
        ∀ k ≥ j, ((c.moment k).run id).ending = some (.failed e) ∧
          (c.moment k).elapsed id = .exact (m.run id).budget.extent := by
  refine ⟨fun n hn => hn.elapsed_le hstarts, fun n side s scope hn hperforms => hn.elapsed_lt hstarts hperforms,
    fun c i duration ms hi hpaced hasks hms hlong => ?_⟩
  have honTime := hi.onTime hstarts.onTime
  have hlimits : ((c.moment i).run id).limits = (m.run id).limits :=
    (hi.moves.terms (hstarts.possible.move hstarts.launch) hstarts.size).limits
  obtain ⟨j, hj, e, hcause, hends⟩ := hpaced.fails_of_asks honTime hasks hms hlong
  rw [hlimits] at hcause
  refine ⟨j, hj, e, hcause, fun k hk => ⟨(hends k hk).1, ?_⟩⟩
  have hspent := (hends k hk).2
  have hk := Nat.le_trans hj hk
  rw [Moment.Spent, Run.budget, Course.limits_eq honTime.size hk, hlimits] at hspent
  rw [Run.budget, ← hspent]
  exact (hpaced.onTime honTime hk).ideal.elapsed

deriving instance DecidableEq for Clock

namespace Moment

variable {m : Moment} {id : RunId} {service : ServiceId}

def nextService? : Moment → Option ServiceId
  | resting w =>
    match w.desk.ready.pop? with
    | some (.service service, _) => some service
    | _ => none
  | within .. => none

theorem follow_serves (h : m.nextService? = some service) : Takes (.service service) m m.follow := by
  cases m with
  | resting w =>
    simp only [nextService?] at h
    split at h
    · rename_i hpop
      cases h
      rw [follow, hpop]
      refine .entry hpop fun id side hentry => ?_
      cases hentry
    · cases h
  | within w id side s => cases h

theorem keepsTime_follow (h : (∃ service ∈ m.nextService?, (m.desk.service service).run = id) ∨
    m.follow.desk.host.clock = m.desk.host.clock) : KeepsTime id m m.follow :=
  h.symm.imp_right fun ⟨service, hnext, howner⟩ => ⟨service, follow_serves hnext, howner⟩

def isIdle : Moment → Bool
  | resting w => w.desk.ready.pop?.isNone
  | within .. => false

theorem follow_idle (h : m.isIdle = true) : m.follow = m := by
  cases m with
  | resting w =>
    rw [follow, Option.isNone_iff_eq_none.1 h]
  | within w id side s => cases h

theorem after_idle {n k : Nat} (h : (m.after n).isIdle = true) (hk : n ≤ k) : m.after k = m.after n := by
  induction hk with
  | refl => rfl
  | @step k hk ih => rw [after, ih, follow_idle h]

end Moment

namespace Napping

/-- The tokens of `try {wait 1000`, `wait 5000} catch {print "a"}`, without places. -/
def tokens : List Token :=
  [.keyword .tryWord, .symbol .leftBrace, .keyword .wait, .number 1000, .newline, .keyword .wait, .number 5000,
    .symbol .rightBrace, .keyword .catchWord, .symbol .leftBrace, .keyword .print, .text "a", .symbol .rightBrace,
    .finish].map fun content => ⟨content, "", default⟩

def duration (ms : Float) : Expr := .literal default (.number ms)

def nap (ms : Float) : Stmt := .command default (.wait (some (duration ms)))

def program : Program := ⟨default, [.attempt default ⟨default, [nap 1000, nap 5000]⟩ ⟨default, [Again.print]⟩ none], #[]⟩

def world : World := { desk := { host := { clock := { seconds := .exact (.finite 0) } } } }

def launched : Moment :=
  .resting (world.launch "script" program { timeoutSeconds := 2 } (.exact (.finite 0)) {} .root)

theorem launched_move : Moment.Move (.resting world) launched :=
  .next (.driven (@World.Driven.launch _ "script" tokens none program rfl _ (.exact (.finite 0)) {} .root))

theorem launched_starts : Moment.Starts 0 (.resting world) launched := by
  refine ⟨.fresh world.desk.host {} (fun _ => true) nofun, launched_move, Nat.le_refl 0, by decide +kernel, rfl, rfl,
    ⟨0, rfl⟩, ?_, by decide +kernel⟩
  rintro p ⟨⟩
  decide

theorem launched_reachable : launched.Reachable :=
  Moment.launched_reachable tokens rfl (by simp)

def course : Course := .leftAlone launched launched_reachable

theorem idle : (launched.after 50).isIdle = true := by decide +kernel

theorem keeps_until : ∀ k < 50,
    (∃ service ∈ (launched.after k).nextService?, ((launched.after k).desk.service service).run = 0) ∨
      (launched.after k).follow.desk.host.clock = (launched.after k).desk.host.clock := by
  decide +kernel

theorem keeps (k : Nat) : Moment.KeepsTime 0 (launched.after k) (launched.after (k + 1)) := by
  rcases Nat.lt_or_ge k 50 with hk | hk
  · exact Moment.keepsTime_follow (keeps_until k hk)
  · refine .inl ?_
    rw [Moment.after_idle idle hk, Moment.after_idle idle (Nat.le_succ_of_le hk)]

theorem timely (k : Nat) : Moment.Timely 0 launched (launched.after k) := by
  induction k with
  | zero => exact .refl
  | succ k ih => exact ih.move (.next (Moment.follow_next _)) (keeps k)

theorem uncancelled_until : ∀ k < 51, ((launched.after k).thread 0 .main).control.isOver = false →
    ((launched.after k).run 0).governor.cancelled = false := by
  decide +kernel

theorem paced : course.Paced 0 30 := by
  refine ⟨fun k _ => keeps k, fun k _ => ?_⟩
  change ((launched.after k).thread 0 .main).control.isOver = false →
    ((launched.after k).run 0).governor.cancelled = false
  rcases Nat.lt_or_ge k 50 with hk | hk
  · exact uncancelled_until k (Nat.lt_succ_of_lt hk)
  · rw [Moment.after_idle idle hk]
    exact uncancelled_until 50 (Nat.lt_succ_self 50)

def length? : Thread → Option Float
  | ⟨.value (.num ms), .operands (.wait (some _)) [] [] _ :: _⟩ => some ms
  | _ => none

theorem asksToWait_of_length? {t : Thread} {ms : Float} (h : length? t = some ms) : t.AsksToWait (some (.num ms)) := by
  unfold length? at h
  split at h
  · cases h
    exact .timed _ _ _ _
  · cases h

/-- The second wait, for five seconds when one is left. -/
theorem asks : ((course.moment 30).thread 0 .main).AsksToWait (some (.num 5000)) :=
  asksToWait_of_length? (by decide +kernel)

def left : Time := (((course.moment 30).run 0).remaining (course.moment 30).desk.host.clock.seconds).millis

theorem left_lt : left < .rounded 5000 := by decide +kernel

theorem budget : (launched.run 0).budget.extent = .finite 2 := by decide +kernel

end Napping

/-- The second wait of this program sleeps for one second, and then the run fails in spite of the `try`. -/
theorem waits_within_the_budget_napping : Moment.Starts 0 (.resting Napping.world) Napping.launched ∧
    Moment.Timely 0 Napping.launched (Napping.course.moment 30) ∧ Napping.course.Paced 0 30 ∧
    ((Napping.course.moment 30).thread 0 .main).AsksToWait (some (.num 5000)) ∧
    ∃ j ≥ 30, ∃ e : ScriptError, e.cause = .timeout 2 ∧ ∀ k ≥ j,
      ((Napping.course.moment k).run 0).ending = some (.failed e) ∧
        (Napping.course.moment k).elapsed 0 = .exact (.finite 2) := by
  obtain ⟨-, -, hfails⟩ := waits_within_the_budget Napping.launched_starts
  refine ⟨Napping.launched_starts, Napping.timely 30, Napping.paced, Napping.asks, ?_⟩
  obtain ⟨j, hj, e, hcause, hends⟩ := hfails Napping.course 30 (some (.num 5000)) 5000 (Napping.timely 30)
    Napping.paced Napping.asks rfl Napping.left_lt
  exact ⟨j, hj, e, hcause, fun k hk => ⟨(hends k hk).1, Napping.budget ▸ (hends k hk).2⟩⟩

end DeskScript
