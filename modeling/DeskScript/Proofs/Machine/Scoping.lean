import DeskScript.Proofs.Machine.Reporting
import DeskScript.Proofs.Scope.Growth

set_option autoImplicit false

/-!
# What a run does to its scopes

Loops, branches, calls, handlers and blocks that catch an error bind their own variables in a new scope. A scope that is
there changes in one way only: a thread assigns a variable that the script names. Hence scopes grow as the rules have it,
at every moment of a run and however it ends: `scopes_follow_rules`.
-/

namespace DeskScript

/-- The scopes after a step: as they were, with a new one, or after the assignment that was about to be made. -/
inductive Scopes.Change (s : Scopes) (target? : Option (String × ScopeId)) : Scopes → Prop
  | same : Change s target? s
  | extended (parent : ScopeId) (label : String) (boundary : Bool) (bindings : Dict Value) :
      Change s target? (s.extend parent label boundary bindings).2
  | assigned {name : String} {scope : ScopeId} (h : target? = some (name, scope)) (value : Value) :
      Change s target? (s.assign scope name value)

def Frame.target? : Frame → Option (String × ScopeId)
  | .assignVar name scope => some (name, scope)
  | .operands (.read _ into) _ _ scope => some (into, scope)
  | .collaborator _ (.storeTruth into scope) | .collaborator _ (.storeText into scope) => some (into, scope)
  | _ => none

def Thread.target? (t : Thread) : Option (String × ScopeId) := t.stack.head?.bind Frame.target?

namespace Scopes.Change

variable {s s' : Scopes} {target? : Option (String × ScopeId)}

theorem grows (h : s.Change target? s') (hroot : s.Rooted) : s.Grows s' := by
  cases h with
  | same => exact .refl s
  | extended parent label boundary bindings => exact s.extend_grows parent label boundary bindings
  | assigned _ value => exact assign_grows hroot _ _ value

theorem get_eq (h : s.Change target? s') {scope : ScopeId} (hscope : scope < s.all.size) : s'.get scope = s.get scope ∨
    ∃ name inner value, target? = some (name, inner) ∧ s' = s.assign inner name value := by
  cases h with
  | same => exact .inl rfl
  | extended parent label boundary bindings => exact .inl (s.get_extend parent label boundary bindings hscope)
  | assigned htarget value => exact .inr ⟨_, _, value, htarget, rfl⟩

end Scopes.Change

namespace Run

variable {side : Side} {r : Run} {d : Desk} {t : Thread} {stack : List Frame} {target? : Option (String × ScopeId)}

theorem invoke_scopes (name : String) (args : List Value) :
    r.scopes.Change target? (r.invoke d name args stack).run.scopes := by
  unfold invoke
  split
  · rename_i f _
    rcases r.callRoutine_cases d f args stack with ⟨e, hraise⟩ | ⟨-, bindings, hgo⟩
    · rw [hraise]
      exact .same
    · rw [hgo]
      exact .extended _ _ _ _
  · dsimp only
    split <;> exact .same

theorem valueOr_scopes (result : Except Failure Value) :
    r.scopes.Change target? (Step.valueOr r d result stack).run.scopes := by
  cases result <;> exact .same

theorem descend_scopes (control : Control) (frame : Frame) :
    r.scopes.Change target? (r.descend d control frame stack).run.scopes := by
  rw [descend_run]
  exact .same

theorem evaluate_scopes (scope : ScopeId) (e : Expr) :
    r.scopes.Change target? (r.evaluate d scope stack e).run.scopes := by
  cases e with
  | var span name =>
    rw [evaluate]
    split <;> exact .same
  | call span name args =>
    cases args with
    | nil => exact invoke_scopes name []
    | cons first rest => exact descend_scopes _ _
  | array span items =>
    cases items with
    | nil => exact .same
    | cons first rest => exact descend_scopes _ _
  | object span entries =>
    cases entries with
    | nil => exact .same
    | cons first rest => exact descend_scopes _ _
  | template span segments => exact valueOr_scopes _
  | literal => exact .same
  | _ => exact descend_scopes _ _

theorem nextTurn_scopes (loop : Loop) (body : Block Stmt) (scope : ScopeId) :
    r.scopes.Change target? (r.nextTurn d loop body scope stack).run.scopes := by
  unfold nextTurn
  split
  · split <;> exact .same
  · exact .same
  · exact .same
  · exact .same

theorem takeTurn_scopes (loop : Loop) (body : Block Stmt) (scope : ScopeId) :
    r.scopes.Change target? (r.takeTurn d loop body scope stack).run.scopes := by
  unfold takeTurn
  split
  · exact .extended _ _ _ _
  · exact .same
  · exact .extended _ _ _ _
  · exact .same

/-- Of all commands only `read` assigns a variable at once. -/
theorem command_scopes (scope : ScopeId) (c : Command Value)
    (htarget : ∀ path into, c = .read path into → target? = some (into, scope)) :
    r.scopes.Change target? (r.command d scope c).1.scopes := by
  cases c with
  | read path into =>
    simp only [command]
    split
    · exact .assigned (htarget path into rfl) _
    · exact .same
  | wait duration =>
    simp only [command]
    split <;> exact .same
  | close target =>
    cases target with
    | some target => exact .same
    | none =>
      simp only [command]
      split <;> exact .same
  | _ => exact .same

theorem evaluateOperands_scopes (c : Command Expr) (given : List Value) (left : List Expr) (scope : ScopeId)
    (htarget : ∀ path into, c = .read path into → given ≠ [] → target? = some (into, scope)) :
    r.scopes.Change target? (r.evaluateOperands d c given left scope stack).run.scopes := by
  unfold evaluateOperands
  split
  · exact .same
  · split
    · rename_i filled hfilled
      have hchange : r.scopes.Change target? (r.command d scope filled).1.scopes := by
        refine command_scopes scope filled fun path into hread => ?_
        subst hread
        unfold Command.fill? at hfilled
        split at hfilled
        all_goals cases hfilled
        rename_i hgiven
        refine htarget _ _ rfl ?_
        rintro rfl
        cases hgiven
      simp only [runCommand]
      split <;> exact hchange
    · exact .same

theorem perform_scopes (scope : ScopeId) (s : Stmt) : r.scopes.Change target? (r.perform d scope stack s).run.scopes := by
  cases s with
  | assign span target value => cases target <;> exact .same
  | conditional span body condition => exact nextTurn_scopes (.conditional 0 condition) body scope
  | giveBack span value => cases value <;> exact .same
  | command span c => exact evaluateOperands_scopes c [] _ scope fun _ _ _ hgiven => absurd rfl hgiven
  | attempt span tryBlock catchBlock errorVar => exact .extended _ _ _ _
  | _ => exact .same

theorem giveValue_scopes (v : Value) (frame : Frame) :
    r.scopes.Change frame.target? (r.giveValue d v stack frame).run.scopes := by
  cases frame with
  | assignVar name scope => exact .assigned rfl v
  | branch yes no scope =>
    simp only [giveValue]
    split
    · exact .extended _ _ _ _
    · split
      · exact .same
      · exact .extended _ _ _ _
  | assignValue | right | logic =>
    simp only [giveValue]
    split <;> exact .same
  | count | items =>
    simp only [giveValue]
    split
    · exact nextTurn_scopes _ _ _
    · exact .same
  | operands c given left scope =>
    refine evaluateOperands_scopes c _ left scope fun path into hread _ => ?_
    subst hread
    rfl
  | emitName payload scope => cases payload <;> exact .same
  | test =>
    simp only [giveValue]
    split
    · exact .same
    · split
      · exact .same
      · exact .extended _ _ _ _
  | unary | key => exact valueOr_scopes _
  | arguments name given left scope =>
    cases left with
    | nil => exact invoke_scopes name _
    | cons e rest => exact .same
  | elements given left scope => cases left <;> exact .same
  | entries given key left scope => cases left <;> exact .same
  | _ => exact .same

/-! The ends of blocks, of handlers and of the run keep every scope. -/

theorem becomeIdle_keepsScopes (r : Run) (d : Desk) : (r.becomeIdle d).1.scopes = r.scopes := by
  unfold becomeIdle
  split <;> rfl

theorem leaveHandler_keepsScopes (r : Run) (d : Desk) (result : Except Raised Unit) :
    (r.leaveHandler d result).run.scopes = r.scopes := by
  obtain ⟨r', d', hjudged, hstep⟩ := r.leaveHandler_judged d result
  have hsame : r'.scopes = r.scopes := by cases hjudged <;> rfl
  have hfinished : (r'.handlerFinished d').1.scopes = r'.scopes := becomeIdle_keepsScopes _ d'
  rcases hstep with hstep | hstep
  · rw [hstep]
    exact hfinished.trans hsame
  · rw [hstep]
    exact hfinished.trans hsame

theorem cancelWorker_keepsScopes (r : Run) (d : Desk) : (r.cancelWorker d).1.scopes = r.scopes := by
  unfold cancelWorker
  split
  · rfl
  · split <;> rfl
  · rfl

theorem close_keepsScopes (r : Run) (d : Desk) (ending : Ending) : (r.close d ending).run.scopes = r.scopes :=
  cancelWorker_keepsScopes _ _

theorem resume_keepsScopes (service : ServiceId) (releases interrupted : Bool) :
    (r.resume d service releases interrupted stack).run.scopes = r.scopes := by
  unfold resume
  dsimp only
  split
  · rfl
  · split <;> rfl

theorem request_keepsScopes (work : Work) : (r.request d side work stack).run.scopes = r.scopes := by
  unfold request
  split
  · rfl
  · cases side with
    | main => rfl
    | worker => exact becomeIdle_keepsScopes _ _

theorem hoist_keepsScopes (r : Run) (stmts : List Stmt) : (r.hoist stmts).scopes = r.scopes := by
  unfold hoist
  induction stmts generalizing r with
  | nil => rfl
  | cons s stmts ih =>
    rw [List.foldl_cons, ih]
    split <;> rfl

theorem endBlock_scopes (signal : Option Signal) (frame : Frame) :
    r.scopes.Change target? (r.endBlock d signal stack frame).run.scopes := by
  cases frame with
  | following =>
    simp only [endBlock]
    split <;> exact .same
  | round =>
    simp only [endBlock]
    split
    · exact .same
    · exact .same
    · exact nextTurn_scopes _ _ _
    · exact nextTurn_scopes _ _ _
  | handler =>
    rw [endBlock, leaveHandler_keepsScopes]
    exact .same
  | _ => exact .same

theorem unwind_scopes (e : Raised) (frame : Frame) : r.scopes.Change target? (r.unwind d e stack frame).run.scopes := by
  cases frame with
  | located =>
    simp only [unwind]
    split <;> exact .same
  | attempt =>
    simp only [unwind]
    split
    · split
      · exact .extended _ _ _ _
      · exact .same
    · exact .same
  | call =>
    simp only [unwind]
    split <;> exact .same
  | handler =>
    rw [unwind, leaveHandler_keepsScopes]
    exact .same
  | program | closing =>
    rw [unwind, close_keepsScopes]
    exact .same
  | _ => exact .same

theorem reply_scopes (result : ServiceResult) (frame : Frame) :
    r.scopes.Change frame.target? (r.reply d result stack frame).run.scopes := by
  cases frame with
  | collaborator task after =>
    simp only [reply]
    split
    · cases after with
      | storeTruth into scope | storeText into scope => exact .assigned rfl _
      | nothing | timeout => exact .same
    all_goals exact .same
  | requested =>
    simp only [reply]
    split <;> exact .same
  | closing =>
    simp only [reply]
    split
    · rw [close_keepsScopes]
      exact .same
    · rw [close_keepsScopes]
      exact .same
  | _ => exact .same

theorem receive_scopes (r : Run) (d : Desk) : r.scopes.Change target? (r.receive d).run.scopes := by
  unfold receive
  dsimp only
  split
  · exact .same
  · split
    · exact .same
    · split
      · exact .same
      · exact .extended _ _ _ _

theorem step_scopes (side : Side) (r : Run) (d : Desk) (t : Thread) :
    r.scopes.Change t.target? (step side r d t).run.scopes := by
  obtain ⟨control, stack⟩ := t
  cases control with
  | statements stmts scope =>
    cases stmts with
    | nil => exact .same
    | cons s rest => exact descend_scopes _ _
  | perform s scope => exact perform_scopes scope s
  | evaluate e scope => exact evaluate_scopes scope e
  | value v =>
    cases stack with
    | nil => exact .same
    | cons frame stack => exact giveValue_scopes v frame
  | ended signal =>
    cases stack with
    | nil => exact .same
    | cons frame stack => exact endBlock_scopes signal frame
  | raised e =>
    cases stack with
    | nil => exact .same
    | cons frame stack => exact unwind_scopes e frame
  | checkpoint =>
    simp only [step, checkpoint]
    split
    · exact .same
    · split <;> exact .same
  | recheck =>
    simp only [step, recheck]
    split <;> exact .same
  | clear =>
    simp only [step, waitClear]
    split <;> exact .same
  | passed =>
    cases stack with
    | nil => exact .same
    | cons frame stack =>
      cases frame with
      | turn loop body scope => exact takeTurn_scopes loop body scope
      | _ => exact .same
  | request work =>
    rw [step, request_keepsScopes]
    exact .same
  | resume service releases =>
    rw [step, resume_keepsScopes]
    exact .same
  | replied result =>
    cases stack with
    | nil => exact .same
    | cons frame stack => exact reply_scopes result frame
  | start =>
    cases side with
    | main =>
      rw [step, begin]
      exact Eq.subst (r.hoist_keepsScopes _).symm .same
    | worker => exact .same
  | receive => exact receive_scopes r d
  | settle | finished => exact .same

theorem interruptWorker_keepsScopes (r : Run) (d : Desk) (t : Thread) :
    (r.interruptWorker d t).run.scopes = r.scopes := by
  unfold interruptWorker
  dsimp only
  split
  · exact resume_keepsScopes _ _ _
  · rfl
  · rfl

theorem answerCommand_keepsScopes (service : ServiceId) (answer : CommandAnswer) (args : Plain) :
    (r.answerCommand d service answer args).1.scopes = r.scopes := by
  unfold answerCommand
  split
  · split <;> rfl
  · rfl

theorem tickCommand_keepsScopes (service : ServiceId) (ticks : Nat) (answer : CommandAnswer) (args : Plain) :
    (r.tickCommand d service ticks answer args).1.scopes = r.scopes := by
  cases ticks with
  | zero => exact answerCommand_keepsScopes service answer args
  | succ left => rfl

theorem beginService_keepsScopes (service : ServiceId) (work : Work) :
    (r.beginService d service work).1.scopes = r.scopes := by
  cases work with
  | command name args => exact tickCommand_keepsScopes service _ _ _
  | request q => exact tickCommand_keepsScopes service _ _ _
  | idle | join =>
    simp only [beginService]
    split <;> rfl
  | _ => rfl

theorem stepService_keepsScopes (r : Run) (d : Desk) (service : ServiceId) :
    (r.stepService d service).1.scopes = r.scopes := by
  simp only [stepService]
  split
  · rfl
  · rfl
  · exact beginService_keepsScopes service _
  · exact tickCommand_keepsScopes service _ _ _
  · rfl
  · rfl
  · rfl

end Run

namespace Moment

variable {m n : Moment} {id : RunId}

theorem Acts.scopes {side : Side} (hacts : Acts id side m n) (hm : m.Sound) :
    (m.run id).scopes.Change (m.thread id side).target? (n.run id).scopes := by
  obtain ⟨-, ready, -, hat | ⟨rfl, -, hat⟩⟩ := hacts.stride hm
  · rw [hat.run]
    exact Run.step_scopes side (m.run id) { m.desk with ready } _
  · rw [hat.run, Run.interruptWorker_keepsScopes]
    exact .same

/-- Only a step of a thread changes the scopes of its run. -/
theorem Move.scopes (hn : Move m n) (hm : m.Sound) (hid : id < m.size) : (n.run id).scopes = (m.run id).scopes ∨
    ∃ side, Acts id side m n ∧ (m.run id).scopes.Change (m.thread id side).target? (n.run id).scopes := by
  cases hn.share hm hid with
  | step side ready hacts hat hother => exact .inr ⟨side, hacts, hacts.scopes hm⟩
  | interrupted ready hacts hrest hat hother => exact .inr ⟨.worker, hacts, hacts.scopes hm⟩
  | rested main worker ready hrun hdesk hthreads => exact .inl ((congrArg Run.scopes hrun).trans rfl)
  | served service ready howner hrun hdesk hthreads =>
    exact .inl ((congrArg Run.scopes hrun).trans (Run.stepService_keepsScopes _ _ service))
  | cancelled hrests hrun hdesk hthreads => exact .inl ((congrArg Run.scopes hrun).trans rfl)
  | aside hrun hthreads => exact .inl (congrArg Run.scopes hrun)

theorem Move.scopes_grow (hn : Move m n) (hm : m.Sound) (hid : id < m.size) (hroot : (m.run id).scopes.Rooted) :
    (m.run id).scopes.Grows (n.run id).scopes := by
  rcases hn.scopes hm hid with hsame | ⟨side, -, hchange⟩
  · rw [hsame]
    exact .refl _
  · exact hchange.grows hroot

theorem Moves.scopes_grow (hn : Moves m n) (hm : Possible m) (hid : id < m.size) (hroot : (m.run id).scopes.Rooted) :
    (m.run id).scopes.Grows (n.run id).scopes := by
  refine hn.run_induction hm hid (P := fun n => (m.run id).scopes.Grows (n.run id).scopes) ?_ (.refl _)
  intro n o hn hsize hmove hgrows
  exact hgrows.trans (hmove.scopes_grow hn.sound hsize (hroot.grows hgrows))

end Moment

theorem Scopes.Rooted.declare {s : Scopes} (h : s.Rooted) (name : String) (value : Value) : (s.declare 0 name value).Rooted :=
  ⟨Nat.lt_of_lt_of_eq h.root Array.size_modify.symm, by rw [s.get_declare_self name value h.root]; exact h.boundary⟩

namespace World

theorem declareAll_rooted {r r' : Run} {bindings : List (String × Plain)} (h : declareAll r bindings = .ok r')
    (hr : r.scopes.Rooted) : r'.scopes.Rooted := by
  apply declareAll_induction (P := fun r => r.scopes.Rooted) h _ hr
  intro r heap name v hr
  exact hr.declare name v

/-- The variables that the host gives to a script are bound in its root. -/
theorem start_rooted (w : World) (l : Launch) {id : RunId} (h : (w.start l).1 = .ok id) :
    ((w.start l).2.run id).scopes.Rooted := by
  have hadded (w : World) (r : Run) : (w.addRun r).run w.runs.size = r := by
    rw [addRun, run, Array.getD_eq_getD_getElem?, Array.getElem?_push, if_pos rfl]
    rfl
  obtain ⟨hruns, -⟩ := w.nameFor_same l.name
  simp only [World.start] at h ⊢
  generalize w.nameFor l.name = named at h hruns ⊢
  cases hparse : parse l.source l.file with
  | error e =>
    simp only [hparse] at h ⊢
    cases h
    exact Eq.subst (congrArg Run.scopes (hadded _ _)).symm Scopes.rooted_root
  | ok program =>
    simp only [hparse] at h ⊢
    split at h
    · cases h
    · rename_i r hdeclared
      cases h
      exact Eq.subst (congrArg Run.scopes (hadded _ r)).symm (declareAll_rooted hdeclared Scopes.rooted_root)

end World

/-- From any moment of a run on, in every interleaving: scopes keep their place and their names, only boundaries get more
names, and what is visible stays visible. A move leaves a scope as it is, unless a thread assigns a variable that the
script names; if that is new in the scope, it was not visible where it is assigned, and the scope is the nearest boundary
from there. -/
theorem scopes_follow_rules {m n : Moment} (hm : m.Possible) {id : RunId} (hid : id < m.size)
    (hroot : (m.run id).scopes.Rooted) (h : Moment.Moves m n) :
    (m.run id).scopes.Grows (n.run id).scopes ∧
    (∀ scope name, scope < (m.run id).scopes.all.size → (m.run id).scopes.Visible scope name →
      (n.run id).scopes.Visible scope name) ∧
    ∀ o, Moment.Move n o → ∀ scope, scope < (n.run id).scopes.all.size →
      (o.run id).scopes.get scope = (n.run id).scopes.get scope ∨
      ∃ side name inner value, Moment.Acts id side n o ∧ (n.thread id side).target? = some (name, inner) ∧
        (o.run id).scopes = (n.run id).scopes.assign inner name value ∧
        ∀ other, ¬ (n.run id).scopes.Declares scope other → (o.run id).scopes.Declares scope other →
          name = other ∧ ¬ (n.run id).scopes.Visible inner other ∧ scope = (n.run id).scopes.boundaryOf inner := by
  have hgrows := h.scopes_grow hm hid hroot
  refine ⟨hgrows, fun scope name hscope hvisible => hgrows.visible hscope hvisible, fun o hmove scope hscope => ?_⟩
  have hsize : id < n.size := Nat.lt_of_lt_of_le hid h.size
  rcases hmove.scopes (hm.moves h).sound hsize with hsame | ⟨side, hacts, hchange⟩
  · exact .inl (congrArg (·.get scope) hsame)
  · rcases hchange.get_eq hscope with hsame | ⟨name, inner, value, htarget, hassigned⟩
    · exact .inl hsame
    · refine .inr ⟨side, name, inner, value, hacts, htarget, hassigned, fun other hbefore hafter => ?_⟩
      rw [hassigned] at hafter
      exact Scopes.declares_assign (hroot.grows hgrows) hbefore hafter

namespace Branching

def launch : Launch := { source := "if true \x7b\nset $x = \"a\"\n\x7d" }

def started : Moment := .resting (({} : World).start launch).2

theorem start_ok : (({} : World).start launch).1 = .ok 0 := Closing.of_toOption (by decide +kernel)

theorem assigning : (started.after 14).isNext 0 .main = true := by decide +kernel

theorem target_eq : ((started.after 14).thread 0 .main).target? = some ("x", 1) ∧
    ((started.after 14).thread 0 .worker).target? = none := by decide +kernel

def names (k : Nat) (scope : ScopeId) : List String := (((started.after k).run 0).scopes.get scope).bindings.keys

theorem names_before : 0 < ((started.after 14).run 0).scopes.all.size ∧ names 14 0 = [] := by decide +kernel

theorem names_after : names 15 0 = ["x"] ∧ names 15 1 = [] := by decide +kernel

end Branching

/-- The branch has a scope of its own, and the variable is bound at the root. -/
theorem scopes_follow_rules_branching : Branching.started.Possible ∧ 0 < Branching.started.size ∧
    (Branching.started.run 0).scopes.Rooted ∧ Moment.Moves Branching.started (Branching.started.after 14) ∧
    Moment.Acts 0 .main (Branching.started.after 14) (Branching.started.after 15) ∧
    ((Branching.started.after 15).run 0).scopes.Declares 0 "x" ∧
    ¬ ((Branching.started.after 15).run 0).scopes.Declares 1 "x" ∧
    ¬ ((Branching.started.after 14).run 0).scopes.Visible 1 "x" := by
  have hfresh : (Moment.resting {}).Possible := .fresh {} {} (fun _ => true) (by simp)
  have hm : Branching.started.Possible := hfresh.move (.next (.driven (.start _ _)))
  have hroot := World.start_rooted {} Branching.launch Branching.start_ok
  have hmoves := Branching.started.moves_after 14
  have hacts : Moment.Acts 0 .main (Branching.started.after 14) (Branching.started.after 15) :=
    Moment.follow_acts Branching.assigning
  have hsize : 0 < Branching.started.size := by decide +kernel
  obtain ⟨-, -, hmove⟩ := @scopes_follow_rules _ _ hm 0 hsize hroot hmoves
  have hbefore : ¬ ((Branching.started.after 14).run 0).scopes.Declares 0 "x" := by
    change "x" ∉ Branching.names 14 0
    rw [Branching.names_before.2]
    exact List.not_mem_nil
  have hafter : ((Branching.started.after 15).run 0).scopes.Declares 0 "x" := by
    change "x" ∈ Branching.names 15 0
    rw [Branching.names_after.1]
    exact List.mem_cons_self
  refine ⟨hm, hsize, hroot, hmoves, hacts, hafter, ?_, ?_⟩
  · change "x" ∉ Branching.names 15 1
    rw [Branching.names_after.2]
    exact List.not_mem_nil
  · rcases hmove _ hacts.move 0 Branching.names_before.1 with hsame | ⟨side, name, inner, value, hside, htarget, -, hnew⟩
    · unfold Scopes.Declares at hafter
      rw [hsame] at hafter
      exact absurd hafter hbefore
    · cases side with
      | main =>
        obtain ⟨rfl, rfl⟩ := Prod.mk.inj (Option.some.inj (htarget.symm.trans Branching.target_eq.1))
        exact (hnew "x" hbefore hafter).2.1
      | worker => cases htarget.symm.trans Branching.target_eq.2

end DeskScript
