import DeskScript.Proofs.Machine.Settling

set_option autoImplicit false

/-!
# Who is enrolled at the bus

A run keeps the numbers of its subscriptions. A step enrols one handler, or withdraws all handlers of its run when that
closes, or leaves every subscription alone: `Run.step_enrols`.
-/

namespace DeskScript

def Bus.roster {σ : Type} (b : Bus σ) : Nat × List (Subscription σ) := (b.nextToken, b.subscriptions)

theorem Bus.unsubscribeAll_roster {σ : Type} (b : Bus σ) (tokens : List Nat) :
    (b.unsubscribeAll tokens).roster = (b.nextToken, b.subscriptions.filter fun s => !tokens.contains s.token) := by
  induction tokens generalizing b with
  | nil => exact congrArg (Prod.mk b.nextToken) (List.filter_eq_self.2 fun _ _ => rfl).symm
  | cons token tokens ih =>
    change ((b.unsubscribe token).unsubscribeAll tokens).roster = _
    rw [ih]
    refine congrArg (Prod.mk b.nextToken) ?_
    simp only [unsubscribe, List.filter_filter]
    refine List.filter_congr fun s _ => ?_
    simp only [List.contains_cons, Bool.not_or, bne, Bool.and_comm]

structure Step.Abstains (r : Run) (d : Desk) (s : Step) : Prop where
  run : s.run.subscriptions = r.subscriptions
  bus : s.desk.host.bus.roster = d.host.bus.roster

inductive Step.Enrols (side : Side) (r : Run) (d : Desk) (t : Thread) (s : Step) : Prop
  | abstains (h : s.Abstains r d)
  | added (pattern : String) (body : Block Stmt) (scope : ScopeId)
      (hthread : ∃ v stack, t = ⟨.value v, .subscribe body scope :: stack⟩)
      (hrun : s.run.subscriptions = r.subscriptions ++ [d.host.bus.nextToken])
      (hbus : s.desk.host.bus.roster = (d.host.bus.subscribe pattern (.handler r.id body scope)).2.roster)
  | withdrawn (hside : side = .main) (hover : s.thread.control.isOver = true) (hrun : s.run.subscriptions = [])
      (hbus : s.desk.host.bus.roster = (d.host.bus.unsubscribeAll r.subscriptions).roster)

namespace Desk

variable {d d' : Desk}

theorem publish_roster (d : Desk) (event : Event) : (d.publish event).host.bus.roster = d.host.bus.roster := by
  have hdeliver (d : Desk) (listener : Listener) : (deliver event d listener).host.bus.roster = d.host.bus.roster := by
    cases listener with
    | handler run body scope => rw [deliver, post_host]
    | recorder => rfl
    | printer lead =>
      simp only [deliver]
      split <;> rfl
  have hfold (listeners : List Listener) (d : Desk) :
      (listeners.foldl (deliver event) d).host.bus.roster = d.host.bus.roster := by
    induction listeners generalizing d with
    | nil => rfl
    | cons listener listeners ih =>
      rw [List.foldl_cons, ih]
      exact hdeliver d listener
  exact hfold _ _

theorem answer_bus (d : Desk) (p : Plain) : (d.answer p).host.bus = d.host.bus := by
  unfold answer
  split
  · rfl
  · exact congrArg Host.bus (Desk.wake_silent _ _ _).host

theorem waitForWorld_bus (h : d.waitForWorld? = some d') : d'.host.bus = d.host.bus := by
  unfold waitForWorld? at h
  split at h
  · cases h
    exact congrArg Host.bus (Desk.wake_silent _ _ _).host
  · split at h
    · cases h
    · cases h
      exact (congrArg Host.bus (Desk.wake_silent _ _ _).host).trans rfl

end Desk

namespace Run

variable {side : Side} {r r' : Run} {d d' : Desk} {t : Thread} {stack : List Frame}

theorem print_abstains (line : String) (control : Control) :
    (Step.go (r.print d line).1 (r.print d line).2 control stack).Abstains r d :=
  ⟨rfl, d.publish_roster _⟩

theorem valueOr_abstains (result : Except Failure Value) : (Step.valueOr r d result stack).Abstains r d := by
  cases result with
  | ok v => exact ⟨rfl, rfl⟩
  | error e => exact ⟨rfl, rfl⟩

theorem invoke_abstains (name : String) (args : List Value) : (r.invoke d name args stack).Abstains r d := by
  unfold invoke
  split
  · rename_i f _
    rcases r.callRoutine_cases d f args stack with ⟨e, hraise⟩ | ⟨-, bindings, hgo⟩
    · rw [hraise]
      exact ⟨rfl, rfl⟩
    · rw [hgo]
      exact ⟨rfl, rfl⟩
  · have hbus := congrArg Bus.roster (Builtin.call_bus name r.heap d.host args).1
    dsimp only
    split <;> exact ⟨rfl, hbus⟩

theorem descend_abstains (control : Control) (frame : Frame) : (r.descend d control frame stack).Abstains r d := by
  unfold descend
  split <;> exact ⟨rfl, rfl⟩

theorem evaluate_abstains (scope : ScopeId) (e : Expr) : (r.evaluate d scope stack e).Abstains r d := by
  cases e with
  | var span name =>
    rw [evaluate]
    split <;> exact ⟨rfl, rfl⟩
  | call span name args =>
    cases args with
    | nil => exact invoke_abstains name []
    | cons first rest => exact descend_abstains _ _
  | array span items =>
    cases items with
    | nil => exact ⟨rfl, rfl⟩
    | cons first rest => exact descend_abstains _ _
  | object span entries =>
    cases entries with
    | nil => exact ⟨rfl, rfl⟩
    | cons first rest => exact descend_abstains _ _
  | template span segments => exact valueOr_abstains _
  | literal => exact ⟨rfl, rfl⟩
  | _ => exact descend_abstains _ _

theorem nextTurn_abstains (loop : Loop) (body : Block Stmt) (scope : ScopeId) :
    (r.nextTurn d loop body scope stack).Abstains r d := by
  unfold nextTurn
  split
  · split <;> exact ⟨rfl, rfl⟩
  · exact ⟨rfl, rfl⟩
  · exact ⟨rfl, rfl⟩
  · exact ⟨rfl, rfl⟩

theorem takeTurn_abstains (loop : Loop) (body : Block Stmt) (scope : ScopeId) :
    (r.takeTurn d loop body scope stack).Abstains r d := by
  unfold takeTurn
  split <;> exact ⟨rfl, rfl⟩

theorem changeFiles_roster (d : Desk) (task : String) (change : FileStore → Except Fault FileStore) :
    (changeFiles d task change).1.host.bus.roster = d.host.bus.roster := by
  unfold changeFiles
  split <;> rfl

theorem command_abstains (r : Run) (d : Desk) (scope : ScopeId) (c : Command Value) :
    (r.command d scope c).1.subscriptions = r.subscriptions ∧
      (r.command d scope c).2.1.host.bus.roster = d.host.bus.roster := by
  cases c with
  | notify | play => exact ⟨rfl, d.publish_roster _⟩
  | write | mkdir | delete => exact ⟨rfl, changeFiles_roster d _ _⟩
  | read | wait =>
    simp only [command]
    split <;> exact ⟨rfl, rfl⟩
  | close target =>
    cases target with
    | some target => exact ⟨rfl, rfl⟩
    | none =>
      simp only [command]
      split <;> exact ⟨rfl, rfl⟩
  | _ => exact ⟨rfl, rfl⟩

theorem evaluateOperands_abstains (c : Command Expr) (given : List Value) (left : List Expr) (scope : ScopeId) :
    (r.evaluateOperands d c given left scope stack).Abstains r d := by
  unfold evaluateOperands
  split
  · exact ⟨rfl, rfl⟩
  · split
    · rename_i c _
      obtain ⟨hrun, hbus⟩ := r.command_abstains d scope c
      simp only [runCommand]
      split <;> exact ⟨hrun, hbus⟩
    · exact ⟨rfl, rfl⟩

theorem perform_abstains (scope : ScopeId) (s : Stmt) : (r.perform d scope stack s).Abstains r d := by
  cases s with
  | assign span target value => cases target <;> exact ⟨rfl, rfl⟩
  | conditional span body condition => exact nextTurn_abstains (.conditional 0 condition) body scope
  | giveBack span value => cases value <;> exact ⟨rfl, rfl⟩
  | command span c => exact evaluateOperands_abstains c [] _ scope
  | _ => exact ⟨rfl, rfl⟩

/-- All frames but one take a value and leave the subscriptions alone. -/
theorem giveValue_abstains (v : Value) {frame : Frame} (hframe : ∀ body scope, frame ≠ .subscribe body scope) :
    (r.giveValue d v stack frame).Abstains r d := by
  cases frame with
  | print => exact print_abstains _ _
  | branch yes no scope =>
    simp only [giveValue]
    split
    · exact ⟨rfl, rfl⟩
    · split <;> exact ⟨rfl, rfl⟩
  | assignValue | right | logic =>
    simp only [giveValue]
    split <;> exact ⟨rfl, rfl⟩
  | count | items =>
    simp only [giveValue]
    split
    · exact nextTurn_abstains _ _ _
    · exact ⟨rfl, rfl⟩
  | operands c given left scope => exact evaluateOperands_abstains c _ left scope
  | subscribe body scope => exact absurd rfl (hframe body scope)
  | emitName payload scope =>
    cases payload with
    | none => exact ⟨rfl, d.publish_roster _⟩
    | some payload => exact ⟨rfl, rfl⟩
  | emitPayload name => exact ⟨rfl, d.publish_roster _⟩
  | test =>
    simp only [giveValue]
    split
    · exact ⟨rfl, rfl⟩
    · split <;> exact ⟨rfl, rfl⟩
  | unary | key => exact valueOr_abstains _
  | arguments name given left scope =>
    cases left with
    | nil => exact invoke_abstains name _
    | cons e rest => exact ⟨rfl, rfl⟩
  | elements given left scope => cases left <;> exact ⟨rfl, rfl⟩
  | entries given key left scope => cases left <;> exact ⟨rfl, rfl⟩
  | _ => exact ⟨rfl, rfl⟩

theorem endBlock_abstains (signal : Option Signal) {frame : Frame} (hframe : frame.isGround = false) :
    (r.endBlock d signal stack frame).Abstains r d := by
  cases frame with
  | following =>
    simp only [endBlock]
    split <;> exact ⟨rfl, rfl⟩
  | round =>
    simp only [endBlock]
    split
    · exact ⟨rfl, rfl⟩
    · exact ⟨rfl, rfl⟩
    · exact nextTurn_abstains _ _ _
    · exact nextTurn_abstains _ _ _
  | handler | program | closing => cases hframe
  | _ => exact ⟨rfl, rfl⟩

theorem unwind_abstains (e : Raised) {frame : Frame} (hframe : frame.isGround = false) :
    (r.unwind d e stack frame).Abstains r d := by
  cases frame with
  | located =>
    simp only [unwind]
    split <;> exact ⟨rfl, rfl⟩
  | attempt =>
    simp only [unwind]
    split
    · split <;> exact ⟨rfl, rfl⟩
    · exact ⟨rfl, rfl⟩
  | call =>
    simp only [unwind]
    split <;> exact ⟨rfl, rfl⟩
  | handler | program | closing => cases hframe
  | _ => exact ⟨rfl, rfl⟩

theorem reply_abstains (result : ServiceResult) {frame : Frame} (hframe : frame.isGround = false) :
    (r.reply d result stack frame).Abstains r d := by
  cases frame with
  | collaborator task after =>
    simp only [reply]
    split
    · cases after <;> exact ⟨rfl, rfl⟩
    all_goals exact ⟨rfl, rfl⟩
  | requested =>
    simp only [reply]
    split <;> exact ⟨rfl, rfl⟩
  | handler | program | closing => cases hframe
  | _ => exact ⟨rfl, rfl⟩

theorem computes_enrols (h : t.computes = true) : (step side r d t).Enrols side r d t := by
  have hground {frame : Frame} (hframe : (!frame.isGround) = true) : frame.isGround = false := by
    rwa [Bool.not_eq_true'] at hframe
  obtain ⟨control, stack⟩ := t
  cases control with
  | statements stmts scope =>
    cases stmts with
    | nil => exact .abstains ⟨rfl, rfl⟩
    | cons s rest => exact .abstains (descend_abstains _ _)
  | perform s scope => exact .abstains (perform_abstains scope s)
  | evaluate e scope => exact .abstains (evaluate_abstains scope e)
  | recheck =>
    simp only [step, recheck]
    split <;> exact .abstains ⟨rfl, rfl⟩
  | clear =>
    simp only [step, waitClear]
    split <;> exact .abstains ⟨rfl, rfl⟩
  | value v =>
    cases stack with
    | nil => cases h
    | cons frame stack =>
      by_cases hframe : ∃ body scope, frame = .subscribe body scope
      · obtain ⟨body, scope, rfl⟩ := hframe
        exact .added (r.heap.display v) body scope ⟨v, stack, rfl⟩ rfl rfl
      · exact .abstains (giveValue_abstains v fun body scope heq => hframe ⟨body, scope, heq⟩)
  | passed =>
    cases stack with
    | nil => cases h
    | cons frame stack =>
      cases frame with
      | turn loop body scope => exact .abstains (takeTurn_abstains loop body scope)
      | _ => exact .abstains ⟨rfl, rfl⟩
  | ended signal =>
    cases stack with
    | nil => cases h
    | cons frame stack => exact .abstains (endBlock_abstains signal (hground h))
  | raised e =>
    cases stack with
    | nil => cases h
    | cons frame stack => exact .abstains (unwind_abstains e (hground h))
  | replied result =>
    cases stack with
    | nil => cases h
    | cons frame stack => exact .abstains (reply_abstains result (hground h))
  | _ => cases h

theorem becomeIdle_abstains (r : Run) (d : Desk) :
    (r.becomeIdle d).1.subscriptions = r.subscriptions ∧ (r.becomeIdle d).2.host = d.host := by
  unfold becomeIdle
  split
  · exact ⟨rfl, rfl⟩
  · exact ⟨rfl, (d.wakeAll_silent _).host⟩

theorem handlerFinished_abstains (r : Run) (d : Desk) :
    (r.handlerFinished d).1.subscriptions = r.subscriptions ∧ (r.handlerFinished d).2.host = d.host := by
  obtain ⟨hrun, hhost⟩ := becomeIdle_abstains { r with governor := { r.governor with handling := false } } d
  exact ⟨hrun, (Desk.handled_host _ _).trans hhost⟩

theorem retire_host (r : Run) (d : Desk) : (r.retire d).desk.host = d.host := by
  unfold retire
  dsimp only
  split <;> rfl

theorem leaveHandler_abstains (result : Except Raised Unit) : (r.leaveHandler d result).Abstains r d := by
  obtain ⟨r', d', hjudged, hstep⟩ := r.leaveHandler_judged d result
  obtain ⟨hrun, hhost⟩ : r'.subscriptions = r.subscriptions ∧ d'.host = d.host := by
    cases hjudged with
    | well => exact ⟨rfl, rfl⟩
    | aborted e => exact ⟨rfl, (d.interruptAll_silent _).host⟩
  obtain ⟨hrun', hhost'⟩ := r'.handlerFinished_abstains d'
  rcases hstep with hstep | hstep
  · rw [hstep]
    exact ⟨hrun'.trans hrun, congrArg (fun h => h.bus.roster) (hhost'.trans hhost)⟩
  · rw [hstep]
    exact ⟨hrun'.trans hrun, congrArg (fun h => h.bus.roster) ((retire_host _ _).trans (hhost'.trans hhost))⟩

theorem resume_abstains (service : ServiceId) (releases interrupted : Bool) :
    (r.resume d service releases interrupted stack).Abstains r d := by
  unfold resume
  dsimp only
  split
  · exact ⟨rfl, rfl⟩
  · split <;> exact ⟨rfl, rfl⟩

theorem request_abstains (work : Work) : (r.request d side work stack).Abstains r d := by
  unfold request
  split
  · exact ⟨rfl, rfl⟩
  · cases side with
    | main => exact ⟨rfl, rfl⟩
    | worker =>
      obtain ⟨hrun, hhost⟩ := becomeIdle_abstains { r with governor := { r.governor with
        pending := r.governor.pending ++ [(d.open_ r.id .worker work).1] } } (d.open_ r.id .worker work).2
      exact ⟨hrun, congrArg (fun h => h.bus.roster) hhost⟩

theorem cancelWorker_abstains (r : Run) (d : Desk) :
    (r.cancelWorker d).1.subscriptions = r.subscriptions ∧ (r.cancelWorker d).2.host = d.host := by
  unfold cancelWorker
  split
  · exact ⟨rfl, rfl⟩
  · split
    · exact ⟨rfl, rfl⟩
    · exact ⟨rfl, (d.interrupt_silent _).host⟩
  · dsimp only
    split <;> exact ⟨rfl, rfl⟩

theorem close_withdraws (r : Run) (d : Desk) (ending : Ending) : (r.close d ending).run.subscriptions = [] ∧
    (r.close d ending).desk.host.bus.roster = (d.host.bus.unsubscribeAll r.subscriptions).roster := by
  let d₁ := (r.revoke (d.modifyBox r.id fun b => { b with closed := true })).2
  let r₂ := ((r.revoke (d.modifyBox r.id fun b => { b with closed := true })).1.cancelled d₁).1
  obtain ⟨hrun, hhost⟩ := r₂.cancelWorker_abstains (d₁.interruptAll r.governor.pending)
  exact ⟨hrun, congrArg (fun h => h.bus.roster) (hhost.trans (d₁.interruptAll_silent r.governor.pending).host)⟩

theorem close_enrols (ending : Ending) : (r.close d ending).Enrols .main r d t := by
  obtain ⟨hrun, hbus⟩ := r.close_withdraws d ending
  exact .withdrawn rfl rfl hrun hbus

theorem hoist_subscriptions (r : Run) (stmts : List Stmt) : (r.hoist stmts).subscriptions = r.subscriptions := by
  unfold hoist
  induction stmts generalizing r with
  | nil => rfl
  | cons s stmts ih =>
    rw [List.foldl_cons, ih]
    split <;> rfl

theorem step_enrols (hfits : t.Fits) (hsided : t.Sided side) : (step side r d t).Enrols side r d t := by
  cases hsided.turn hfits with
  | computes hcomputes => exact computes_enrols hcomputes
  | checkpoint stack =>
    simp only [step, checkpoint]
    split
    · exact .abstains ⟨rfl, rfl⟩
    · split <;> exact .abstains ⟨rfl, rfl⟩
  | request work stack => exact .abstains (request_abstains work)
  | resume service stack => exact .abstains (resume_abstains service _ false)
  | handled signal => exact .abstains (leaveHandler_abstains (.ok ()))
  | failed e => exact .abstains (leaveHandler_abstains (.error e))
  | ran signal => exact .abstains ⟨rfl, rfl⟩
  | stopped e hframe =>
    rcases hframe with rfl | ⟨v, rfl⟩
    · exact close_enrols _
    · exact close_enrols _
  | joined result v =>
    simp only [step, reply]
    split
    · exact close_enrols _
    · exact close_enrols _
  | start =>
    cases side with
    | main => exact .abstains ⟨r.hoist_subscriptions _, rfl⟩
    | worker => exact .abstains ⟨rfl, rfl⟩
  | receive =>
    simp only [step, receive]
    split
    · exact .abstains ⟨rfl, congrArg (fun h => h.bus.roster) (r.retire_host d)⟩
    · split
      · exact .abstains ⟨rfl, rfl⟩
      · split <;> exact .abstains ⟨rfl, rfl⟩
  | settle ending =>
    simp only [step, settle]
    split
    · exact .abstains ⟨rfl, d.publish_roster _⟩
    · exact .abstains ⟨rfl, rfl⟩
  | finished => exact .abstains ⟨rfl, rfl⟩

theorem interruptWorker_abstains (hrested : t.Rested) : (r.interruptWorker d t).Abstains r d := by
  cases hrested with
  | resume service stack =>
    have habstains := @resume_abstains { r with workerCancelled := false } d stack service true true
    exact ⟨habstains.run, habstains.bus⟩
  | recheck stack => exact ⟨rfl, rfl⟩
  | @bare control hresume hrecheck =>
    simp only [interruptWorker]
    exact ⟨rfl, congrArg (fun h => h.bus.roster) (retire_host _ d)⟩

structure Idles (r : Run) (d : Desk) (r' : Run) (d' : Desk) : Prop where
  subscriptions : r'.subscriptions = r.subscriptions
  workerCancelled : r'.workerCancelled = r.workerCancelled
  gathering : r'.gathering = r.gathering
  bus : d'.host.bus = d.host.bus

theorem answerCommand_idles (service : ServiceId) (answer : CommandAnswer) (args : Plain) :
    r.Idles d (r.answerCommand d service answer args).1 (r.answerCommand d service answer args).2 := by
  unfold answerCommand
  split
  · split <;> exact ⟨rfl, rfl, rfl, rfl⟩
  · exact ⟨rfl, rfl, rfl, rfl⟩

theorem tickCommand_idles (service : ServiceId) (ticks : Nat) (answer : CommandAnswer) (args : Plain) :
    r.Idles d (r.tickCommand d service ticks answer args).1 (r.tickCommand d service ticks answer args).2 := by
  cases ticks with
  | zero => exact answerCommand_idles service answer args
  | succ left => exact ⟨rfl, rfl, rfl, rfl⟩

theorem beginCommand_idles (service : ServiceId) (name : String) (args : Plain) :
    r.Idles d (r.beginCommand d service name args).1 (r.beginCommand d service name args).2 := by
  have hidles := @tickCommand_idles r (d.recordCommand name args) service (d.host.commands.spec name).ticks
    (d.host.commands.spec name).answer args
  exact ⟨hidles.subscriptions, hidles.workerCancelled, hidles.gathering, hidles.bus⟩

theorem beginService_idles (service : ServiceId) (work : Work) :
    r.Idles d (r.beginService d service work).1 (r.beginService d service work).2 := by
  cases work with
  | dialog kind message default =>
    refine ⟨rfl, rfl, rfl, ?_⟩
    simp only [beginService, Desk.beginDialog]
    split
    · rfl
    · rfl
    · split <;> rfl
    · rfl
  | command name args => exact beginCommand_idles service name args
  | request q => exact beginCommand_idles service _ _
  | sleep ms =>
    refine ⟨rfl, rfl, rfl, ?_⟩
    simp only [beginService, Desk.beginSleep]
    split
    · rfl
    · split <;> rfl
  | idle | join =>
    simp only [beginService]
    split <;> exact ⟨rfl, rfl, rfl, rfl⟩

theorem stepService_idles (r : Run) (d : Desk) (service : ServiceId) :
    r.Idles d (r.stepService d service).1 (r.stepService d service).2 := by
  simp only [stepService]
  split
  · exact ⟨rfl, rfl, rfl, rfl⟩
  · exact ⟨rfl, rfl, rfl, rfl⟩
  · exact beginService_idles service _
  · exact tickCommand_idles service _ _ _
  · exact ⟨rfl, rfl, rfl, rfl⟩
  · exact ⟨rfl, rfl, rfl, rfl⟩
  · exact ⟨rfl, rfl, rfl, rfl⟩

end Run

namespace World

variable {w w' : World}

theorem start_roster (w : World) (l : Launch) : (w.start l).2.desk.host.bus.roster = w.desk.host.bus.roster := by
  obtain ⟨-, hdesk⟩ := w.nameFor_same l.name
  have hpublish (w : World) (event : Event) : (w.publish event).desk.host.bus.roster = w.desk.host.bus.roster :=
    w.desk.publish_roster event
  rw [← congrArg (fun d => d.host.bus.roster) hdesk]
  simp only [World.start]
  generalize w.nameFor l.name = named
  split
  · split
    · exact (hpublish _ _).trans (hpublish _ _)
    · exact hpublish _ _
  · split
    · exact hpublish _ _
    · exact hpublish _ _

theorem lt_size_of_open {id : RunId} (w : World)
    (hopen : ¬((w.run id).program.isNone || (w.run id).ending.isSome) = true) : id < w.runs.size := by
  refine Nat.lt_of_not_le fun hout => hopen ?_
  rw [run, Array.getD_eq_getD_getElem?, Array.getElem?_eq_none hout]
  rfl

/-- A run that has not ended is cancelled, and its handlers are withdrawn. -/
theorem cancel_of_open {id : RunId} (w : World)
    (hopen : ¬((w.run id).program.isNone || (w.run id).ending.isSome) = true) :
    w.cancel id = { w with desk := (((w.run id).cancelled w.desk).1.revoke ((w.run id).cancelled w.desk).2).2 }.setRun id
      (((w.run id).cancelled w.desk).1.revoke ((w.run id).cancelled w.desk).2).1 := by
  simp only [cancel, hopen]
  rfl

theorem subscriptions_cancel {id : RunId} (w : World)
    (hopen : ¬((w.run id).program.isNone || (w.run id).ending.isSome) = true) :
    ((w.cancel id).run id).subscriptions = [] := by
  have hrun := run_setRun_self { w with desk := (((w.run id).cancelled w.desk).1.revoke
    ((w.run id).cancelled w.desk).2).2 } (w.lt_size_of_open hopen)
    (((w.run id).cancelled w.desk).1.revoke ((w.run id).cancelled w.desk).2).1
  rw [← w.cancel_of_open hopen] at hrun
  exact congrArg Run.subscriptions hrun

end World

namespace Moment

variable {m n : Moment} {id : RunId} {side : Side}

/-- The owner of a handler withdraws it: its main thread closes the run, or the run is cancelled from outside. -/
inductive Ends (id : RunId) : Moment → Moment → Prop
  | closed {m n : Moment} (h : Acts id .main m n) (hover : (n.thread id .main).control.isOver = true) : Ends id m n
  | cancel (w : World) : Ends id (resting w) (resting (w.cancel id))

inductive Enrols (m n : Moment) : Prop
  | same (hbus : n.desk.host.bus.roster = m.desk.host.bus.roster)
      (hruns : ∀ id, id < m.size → (n.run id).subscriptions = (m.run id).subscriptions)
  | added (id : RunId) (hid : id < m.size) (pattern : String) (body : Block Stmt) (scope : ScopeId)
      (hthread : ∃ side v stack, m.thread id side = ⟨.value v, .subscribe body scope :: stack⟩)
      (hbus : n.desk.host.bus.roster = (m.desk.host.bus.subscribe pattern (.handler id body scope)).2.roster)
      (hrun : (n.run id).subscriptions = (m.run id).subscriptions ++ [m.desk.host.bus.nextToken])
      (hothers : ∀ other, other < m.size → other ≠ id → (n.run other).subscriptions = (m.run other).subscriptions)
  | withdrawn (id : RunId) (hid : id < m.size) (hends : Ends id m n)
      (hbus : n.desk.host.bus.roster = (m.desk.host.bus.unsubscribeAll (m.run id).subscriptions).roster)
      (hrun : (n.run id).subscriptions = [])
      (hothers : ∀ other, other < m.size → other ≠ id → (n.run other).subscriptions = (m.run other).subscriptions)
  | listened (pattern : String) {listener : Listener} (hlistener : ∀ run body scope, listener ≠ .handler run body scope)
      (hbus : n.desk.host.bus.roster = (m.desk.host.bus.subscribe pattern listener).2.roster)
      (hruns : ∀ id, id < m.size → (n.run id).subscriptions = (m.run id).subscriptions)
  | unlistened (w : World) (token : Nat) (hm : m = resting w) (hn : n = resting { w with desk := { w.desk with host :=
        { w.desk.host with bus := w.desk.host.bus.unsubscribe token } } })

theorem Acts.enrols (hacts : Acts id side m n) (hm : Possible m) : Enrols m n := by
  have hid := hm.orderly.acting hacts
  have hname := hm.attended.named hid
  have hfits := hm.sound.thread id side
  have hsided := hm.attended.sided hid side
  obtain ⟨-, -, hothers⟩ := hacts.frame
  have hkept (other : RunId) (hne : other ≠ id) : (n.run other).subscriptions = (m.run other).subscriptions := by
    rw [hothers other hne]
  have habstains {s : Step} {ready : Queue Ready} (hat : n.At id side s) (h : s.Abstains (m.run id) { m.desk with ready }) :
      Enrols m n := by
    refine .same ?_ fun other _ => ?_
    · rw [hat.desk]
      exact h.bus
    · by_cases hsame : other = id
      · subst hsame
        rw [hat.run]
        exact h.run
      · exact hkept other hsame
  obtain ⟨-, ready, -, hat | ⟨rfl, hrest, hat⟩⟩ := hacts.stride hm.sound
  · cases @Run.step_enrols side (m.run id) { m.desk with ready } _ hfits hsided with
    | abstains h => exact habstains hat h
    | added pattern body scope hthread hrun hbus =>
      rw [← hat.desk, hname] at hbus
      rw [← hat.run] at hrun
      exact .added id hid pattern body scope ⟨side, hthread⟩ hbus hrun fun other _ => hkept other
    | withdrawn hside hover hrun hbus =>
      subst hside
      rw [← hat.desk] at hbus
      rw [← hat.run] at hrun
      rw [← hat.thread] at hover
      exact .withdrawn id hid (.closed hacts hover) hbus hrun fun other _ => hkept other
  · exact habstains hat (Run.interruptWorker_abstains (hsided.rested hfits hrest))

theorem enrols_cancel (w : World) (id : RunId) : Enrols (resting w) (resting (w.cancel id)) := by
  by_cases hover : ((w.run id).program.isNone || (w.run id).ending.isSome) = true
  · have hsame : w.cancel id = w := by simp only [World.cancel, hover, if_true]
    rw [hsame]
    exact .same rfl fun _ _ => rfl
  · have hid := w.lt_size_of_open hover
    have hcancel := w.cancel_of_open hover
    refine .withdrawn id hid (.cancel w) ?_ (w.subscriptions_cancel hover) fun other _ hother => ?_
    · rw [hcancel]
      have hhost : (w.desk.interruptAll (w.run id).governor.pending).host = w.desk.host :=
        (w.desk.interruptAll_silent _).host
      exact congrArg (fun host => (host.bus.unsubscribeAll (w.run id).subscriptions).roster) hhost
    · rw [hcancel]
      exact congrArg Run.subscriptions (World.run_setRun_ne _ hother _)

theorem enrols_driven {w w' : World} (h : w.Driven w') : Enrols (resting w) (resting w') := by
  have hgrown (hg : w.Grown w') (id : RunId) (hid : id < w.runs.size) :
      (w'.run id).subscriptions = (w.run id).subscriptions := by rw [hg.run_eq hid]
  cases h with
  | start l => exact .same (w.start_roster l) (hgrown (w.start_grown l))
  | publish event => exact .same (w.desk.publish_roster event) fun _ _ => rfl
  | cancel id => exact enrols_cancel w id
  | answer p => exact .same (congrArg Bus.roster (w.desk.answer_bus p)) fun _ _ => rfl
  | launch name hparse limits startedAt heap scopes =>
    exact .same rfl fun id hid => congrArg Run.subscriptions (w.run_addRun _ hid)
  | wait | turn | configure => exact .same rfl fun _ _ => rfl
  | listen pattern hlistener => exact .listened pattern hlistener rfl fun _ _ => rfl
  | unlisten token => exact .unlistened w token rfl rfl
  | host hbus => exact .same (congrArg Bus.roster hbus) fun _ _ => rfl

theorem Move.enrols (hn : Move m n) (hm : Possible m) : Enrols m n := by
  cases hn with
  | reorder _ => exact .same rfl fun _ _ => rfl
  | next hn =>
    cases hn with
    | driven hdriven => exact enrols_driven hdriven
    | waited _ hdesk => exact .same (congrArg Bus.roster (Desk.waitForWorld_bus hdesk)) fun _ _ => rfl
    | thread hpop => exact (Acts.first hpop).enrols hm
    | step hpace => exact (Acts.step hpace).enrols hm
    | @entry w entry ready hpop hentry =>
      cases entry with
      | thread run side => exact absurd rfl (hentry run side)
      | gathered | forget | controller => exact .same rfl fun _ _ => rfl
      | service service =>
        have hidles := (w.run (w.desk.service service).run).stepService_idles (w.dequeued ready).desk service
        refine .same (congrArg Bus.roster hidles.bus) fun id hid => ?_
        change (((w.dequeued ready).advance (.service service)).run id).subscriptions = _
        rw [World.run_advance_service (w.dequeued ready) service id hid]
        split
        · rename_i howner
          rw [howner]
          exact hidles.subscriptions
        · rfl
    | @rest w active working s _ =>
      obtain ⟨ready, hdesk⟩ := w.rest_desk active working s
      refine .same ?_ fun id hid => ?_
      · change (w.rest active working s).desk.host.bus.roster = _
        rw [hdesk]
        rfl
      · by_cases hactive : id = active
        · subst hactive
          change ((w.rest id working s).run id).subscriptions = _
          rw [World.run_rest_self w hid]
          cases working <;> simp only [Moment.run, if_true, Step.store]
        · change ((w.rest active working s).run id).subscriptions = _
          rw [World.run_rest_ne w hactive]
          simp only [Moment.run, if_neg hactive]

/-- A run keeps the numbers of all its handlers at the bus; a number that it keeps is not that of another's. -/
structure Enrolled (m : Moment) : Prop where
  own : ∀ s ∈ m.desk.host.bus.subscriptions, ∀ id body scope, s.listener = .handler id body scope →
    s.token ∈ (m.run id).subscriptions
  below : ∀ s ∈ m.desk.host.bus.subscriptions, s.token < m.desk.host.bus.nextToken
  kept : ∀ id, id < m.size → ∀ token ∈ (m.run id).subscriptions, token < m.desk.host.bus.nextToken ∧
    ∀ s ∈ m.desk.host.bus.subscriptions, s.token = token → ∃ body scope, s.listener = .handler id body scope

theorem Enrolled.fresh (host : Host) (config : Config) (holds : List Frame → Bool)
    (hlisteners : ∀ s ∈ host.bus.subscriptions, ∀ run body scope, s.listener ≠ .handler run body scope)
    (hnumbers : ∀ s ∈ host.bus.subscriptions, s.token < host.bus.nextToken) :
    Enrolled (resting { desk := { host }, config, holds }) := by
  refine ⟨fun s hs id body scope hl => absurd hl (hlisteners s hs id body scope), hnumbers, fun id hid => ?_⟩
  exact absurd hid (Nat.not_lt_zero id)

/-- A run that was not there before the move keeps no number yet. -/
theorem Move.subscriptions_new (hn : Move m n) (hold : m.size ≤ id) (hnew : id < n.size) :
    (n.run id).subscriptions = [] :=
  (hn.unbegun hold hnew).1.subscriptions

theorem Enrolled.fewer (h : Enrolled m) (hn : Move m n) {keep : Subscription Listener → Bool}
    (hbus : n.desk.host.bus.roster = (m.desk.host.bus.nextToken, m.desk.host.bus.subscriptions.filter keep))
    (hruns : ∀ id, id < m.size → (n.run id).subscriptions ⊆ (m.run id).subscriptions)
    (hkeep : ∀ s ∈ m.desk.host.bus.subscriptions, keep s = true → ∀ id body scope, s.listener = .handler id body scope →
      s.token ∈ (n.run id).subscriptions) : Enrolled n := by
  obtain ⟨hnext, hsubs⟩ := Prod.mk.inj hbus
  change n.desk.host.bus.nextToken = _ at hnext
  change n.desk.host.bus.subscriptions = _ at hsubs
  refine ⟨fun s hs id body scope hl => ?_, fun s hs => ?_, fun id hid token htoken => ?_⟩
  · rw [hsubs] at hs
    obtain ⟨hs, hkept⟩ := List.mem_filter.1 hs
    exact hkeep s hs hkept id body scope hl
  · rw [hsubs] at hs
    rw [hnext]
    exact h.below s (List.mem_filter.1 hs).1
  · by_cases hold : id < m.size
    · obtain ⟨hlt, hown⟩ := h.kept id hold token (hruns id hold htoken)
      rw [hnext, hsubs]
      exact ⟨hlt, fun s hs => hown s (List.mem_filter.1 hs).1⟩
    · rw [hn.subscriptions_new (Nat.le_of_not_lt hold) hid] at htoken
      cases htoken

theorem Enrolled.more (h : Enrolled m) (hn : Move m n) (hm : Possible m) {pattern : String} {listener : Listener}
    (hbus : n.desk.host.bus.roster = (m.desk.host.bus.subscribe pattern listener).2.roster)
    (hruns : ∀ id, id < m.size → (m.run id).subscriptions ⊆ (n.run id).subscriptions ∧
      ∀ token ∈ (n.run id).subscriptions, token ∈ (m.run id).subscriptions ∨
        token = m.desk.host.bus.nextToken ∧ ∃ body scope, listener = .handler id body scope)
    (hnew : ∀ id body scope, listener = .handler id body scope →
      m.desk.host.bus.nextToken ∈ (n.run id).subscriptions) : Enrolled n := by
  obtain ⟨hnext, hsubs⟩ := Prod.mk.inj hbus
  change n.desk.host.bus.nextToken = m.desk.host.bus.nextToken + 1 at hnext
  change n.desk.host.bus.subscriptions = m.desk.host.bus.subscriptions ++ [⟨_, pattern, listener⟩] at hsubs
  have hcases {s : Subscription Listener} (hs : s ∈ n.desk.host.bus.subscriptions) :
      s ∈ m.desk.host.bus.subscriptions ∨ s = ⟨m.desk.host.bus.nextToken, pattern, listener⟩ := by
    rw [hsubs] at hs
    exact (List.mem_append.1 hs).imp_right List.mem_singleton.1
  refine ⟨fun s hs id body scope hl => ?_, fun s hs => ?_, fun id hid token htoken => ?_⟩
  · rcases hcases hs with hs | rfl
    · have hid := hm.orderly.desk.listeners s hs id body scope hl
      exact (hruns id hid).1 (h.own s hs id body scope hl)
    · exact hnew id body scope hl
  · rw [hnext]
    rcases hcases hs with hs | rfl
    · exact Nat.lt_succ_of_lt (h.below s hs)
    · exact Nat.lt_succ_self _
  · rw [hnext]
    by_cases hold : id < m.size
    · rcases (hruns id hold).2 token htoken with hmem | ⟨rfl, body, scope, hl⟩
      · obtain ⟨hlt, hown⟩ := h.kept id hold token hmem
        refine ⟨Nat.lt_succ_of_lt hlt, fun s hs htoken => ?_⟩
        rcases hcases hs with hs | rfl
        · exact hown s hs htoken
        · exact absurd htoken (Nat.ne_of_gt hlt)
      · refine ⟨Nat.lt_succ_self _, fun s hs htoken => ?_⟩
        rcases hcases hs with hs | rfl
        · exact absurd htoken (Nat.ne_of_lt (h.below s hs))
        · exact ⟨body, scope, hl⟩
    · rw [hn.subscriptions_new (Nat.le_of_not_lt hold) hid] at htoken
      cases htoken

theorem Enrolled.move (h : Enrolled m) (hm : Possible m) (hn : Move m n) : Enrolled n := by
  have hlisteners {s : Subscription Listener} (hs : s ∈ m.desk.host.bus.subscriptions) :=
    hm.orderly.desk.listeners s hs
  cases hn.enrols hm with
  | same hbus hruns =>
    have hfilter : m.desk.host.bus.subscriptions.filter (fun _ => true) = m.desk.host.bus.subscriptions :=
      List.filter_eq_self.2 fun _ _ => rfl
    refine @Enrolled.fewer m n h hn (fun _ => true) ?_ (fun id hid => ?_) fun s hs _ id body scope hl => ?_
    · rw [hfilter]
      exact hbus
    · rw [hruns id hid]
      exact List.Subset.refl _
    · rw [hruns id (hlisteners hs id body scope hl)]
      exact h.own s hs id body scope hl
  | added id hid pattern body scope _ hbus hrun hothers =>
    refine h.more hn hm hbus (fun other hother => ?_) fun other body' scope' hl => ?_
    · by_cases hsame : other = id
      · subst hsame
        rw [hrun]
        refine ⟨List.subset_append_left _ _, fun token htoken => ?_⟩
        exact (List.mem_append.1 htoken).imp_right fun hlast => ⟨List.mem_singleton.1 hlast, body, scope, rfl⟩
      · rw [hothers other hother hsame]
        exact ⟨List.Subset.refl _, fun token htoken => .inl htoken⟩
    · cases hl
      rw [hrun]
      exact List.mem_append_right _ List.mem_cons_self
  | withdrawn id hid hends hbus hrun hothers =>
    rw [Bus.unsubscribeAll_roster] at hbus
    refine h.fewer hn hbus (fun other hother => ?_) fun s hs hkeep other body scope hl => ?_
    · by_cases hsame : other = id
      · subst hsame
        rw [hrun]
        exact List.nil_subset _
      · rw [hothers other hother hsame]
        exact List.Subset.refl _
    · have hown := h.own s hs other body scope hl
      by_cases hsame : other = id
      · subst hsame
        simp only [List.contains_eq_mem, hown, decide_true, Bool.not_true] at hkeep
        cases hkeep
      · rw [hothers other (hlisteners hs other body scope hl) hsame]
        exact hown
  | listened pattern hlistener hbus hruns =>
    refine h.more hn hm hbus (fun id hid => ?_) fun id body scope hl => absurd hl (hlistener id body scope)
    rw [hruns id hid]
    exact ⟨List.Subset.refl _, fun token htoken => .inl htoken⟩
  | unlistened w token hmoment hnext =>
    subst hmoment
    subst hnext
    exact h.fewer hn rfl (fun _ _ => List.Subset.refl _) fun s hs _ id body scope hl => h.own s hs id body scope hl

theorem Enrolled.moves (h : Enrolled m) (hm : Possible m) (hn : Moves m n) : Enrolled n := by
  induction hn with
  | refl => exact h
  | move hmoves hn ih => exact ih.move (hm.moves hmoves) hn

end Moment

end DeskScript
