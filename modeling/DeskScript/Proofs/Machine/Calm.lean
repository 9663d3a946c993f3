import DeskScript.Proofs.Machine.Onward
import DeskScript.Proofs.Machine.Sound
import DeskScript.Proofs.Value.Readable

set_option autoImplicit false

/-!
# Steps that only compute

Most steps leave the governor alone, keep the thread in its slice, and put frames on the stack that any thread may have;
at the desk they change the host, publish one event, or subscribe one handler. `step_calm` says which: all but those that
ask for leave, open or end a wait, and begin or end a body.
-/

namespace DeskScript

/-- What a thread of a run does at the desk while it computes. -/
inductive Desk.Deed (run : RunId) (d : Desk) : Desk → Prop
  | host (host : Host) (hbus : host.bus = d.host.bus) (hpublished : host.published = d.host.published) :
      Deed run d { d with host }
  | publish (event : Event) (hreadable : event.payload.Readable) : Deed run d (d.publish event)
  | subscribe (pattern : String) (body : Block Stmt) (scope : ScopeId) : Deed run d { d with host := { d.host with
      bus := (d.host.bus.subscribe pattern (.handler run body scope)).2 } }

theorem Desk.Deed.refl {run : RunId} (d : Desk) : d.Deed run d := .host d.host rfl rfl

theorem Desk.Deed.onward {run : RunId} {d d' : Desk} (h : d.Deed run d') : d.Onward d' := by
  cases h with
  | host => exact .of_services rfl (List.prefix_refl _)
  | publish event => exact d.publish_onward event
  | subscribe => exact .of_services rfl (List.prefix_refl _)

/-- Two runs with the same governor that have not come closer to their end, or to that of their worker. -/
structure Run.Alike (r r' : Run) : Prop where
  governor : r'.governor = r.governor
  ending : r'.ending = r.ending
  gathering : r'.gathering = r.gathering
  workerCancelled : r'.workerCancelled = r.workerCancelled

/-- A frame that the stack of a thread may have: programs belong to the main thread, handlers to the worker, and only the
main thread waits at a checkpoint. -/
def Frame.isOf (side : Side) : Frame → Bool
  | .handler => side = .worker
  | .program | .closing _ | .clearing => side = .main
  | _ => true

def Frame.isGround : Frame → Bool
  | .handler | .program | .closing _ => true
  | _ => false

def Frame.isInner (side : Side) (frame : Frame) : Bool := frame.isOf side && !frame.isGround

/-- Threads whose next step only computes. -/
def Thread.computes : Thread → Bool
  | ⟨.statements .., _⟩ | ⟨.perform .., _⟩ | ⟨.evaluate .., _⟩ | ⟨.recheck, _⟩ | ⟨.clear, _⟩ => true
  | ⟨.value _, _ :: _⟩ | ⟨.passed, _ :: _⟩ => true
  | ⟨.ended _, frame :: _⟩ | ⟨.raised _, frame :: _⟩ | ⟨.replied _, frame :: _⟩ => !frame.isGround
  | _ => false

def Control.isGate : Control → Bool
  | .recheck | .clear | .passed | .perform .. | .replied _ => true
  | _ => false

def Control.isInner (control : Control) : Bool := !control.atRest && !control.isGate

/-- How a thread that only computes comes closer to the leave it asked for. -/
inductive Run.Grants (side : Side) (r : Run) (d : Desk) (stack : List Frame) : Control → Control → Prop
  | checked (h : r.objection? d.host.clock.seconds = none) : Grants side r d stack .recheck .clear
  | woken (result : ServiceResult) (h : .clearing ∈ stack) : Grants side r d stack (.replied result) .clear
  | passed (h : r.isClear side = true) : Grants side r d stack .clear .passed
  | performed (s : Stmt) (scope : ScopeId) : Grants side r d stack .passed (.perform s scope)

/-- A wait that is as long as a script asks for, or as long as the budget lasts, if that is less. -/
def Run.Naps (r : Run) (d : Desk) (ms : Time) : Prop :=
  ∃ duration asked, r.waitMillis duration = .ok asked ∧ ∃ after, r.waitFor d asked = .ask (.sleep ms) "wait" after

/-- What a thread that only computes asks a service for, and the frame that waits for the answer. -/
inductive Run.Asks (side : Side) (r : Run) (d : Desk) : Work → Frame → Prop
  | idle (h : r.isClear side = false) : Asks side r d .idle .clearing
  | sleep {ms : Time} (h : r.Naps d ms) (after : After) : Asks side r d (.sleep ms) (.collaborator "wait" after)
  | call {work : Work} {frame : Frame} (hwork : ∀ ms, work ≠ .sleep ms) (hframe : frame ≠ .clearing) :
      Asks side r d work frame

theorem Run.Asks.idle_of_clearing {side : Side} {r : Run} {d : Desk} {work : Work} (h : r.Asks side d work .clearing) :
    work = .idle := by
  cases h with
  | idle => rfl
  | call _ hframe => exact absurd rfl hframe

structure Step.Calm (side : Side) (r : Run) (d : Desk) (before : Control) (stack : List Frame) (s : Step) : Prop where
  alike : r.Alike s.run
  deed : d.Deed r.id s.desk
  pace : s.pace = .go
  inner : s.thread.control.atRest = false
  gate : s.thread.control.isGate = true → r.Grants side d stack before s.thread.control
  frames : ∀ frame ∈ s.thread.stack, frame ∈ stack ∨ frame.isInner side = true
  asks : ∀ work, s.thread.control = .request work → ∃ frame, s.thread.stack.head? = some frame ∧ r.Asks side d work frame

namespace Step

variable {side : Side} {r r' : Run} {d d' : Desk} {stack stack' : List Frame} {frame : Frame} {before control : Control}

theorem Calm.below {s : Step} (h : s.Calm side r d before stack) (frame : Frame) : s.Calm side r d before (frame :: stack) := by
  refine ⟨h.alike, h.deed, h.pace, h.inner, fun hgate => ?_,
    fun f hf => (h.frames f hf).imp_left (List.mem_cons_of_mem frame), h.asks⟩
  have hgrants := h.gate hgate
  generalize s.thread.control = control at hgrants
  cases hgrants with
  | checked hnone => exact .checked hnone
  | woken result hmem => exact .woken result (List.mem_cons_of_mem frame hmem)
  | passed hclear => exact .passed hclear
  | performed s scope => exact .performed s scope

theorem ungated (hinner : control.isInner = true) : control.atRest = false ∧ ¬control.isGate = true := by
  obtain ⟨hrest, hgate⟩ := Bool.and_eq_true_iff.1 hinner
  exact ⟨Bool.not_eq_true' _ ▸ hrest, Bool.eq_false_iff.1 (Bool.not_eq_true' _ ▸ hgate)⟩

theorem calm_gate (hgate : r.Grants side d stack before control) : (go r d control stack).Calm side r d before stack := by
  refine ⟨⟨rfl, rfl, rfl, rfl⟩, .refl d, rfl, ?_, fun _ => hgate, fun _ hf => .inl hf, ?_⟩
  · cases hgate <;> rfl
  · cases hgate <;> exact nofun

theorem calm_go (halike : r.Alike r') (hdeed : d.Deed r.id d') (hinner : control.isInner = true)
    (hasks : ∀ work, control ≠ .request work) : (go r' d' control stack).Calm side r d before stack :=
  ⟨halike, hdeed, rfl, (ungated hinner).1, fun hgate => absurd hgate (ungated hinner).2, fun _ hf => .inl hf,
    fun work hwork => absurd hwork (hasks work)⟩

theorem calm_push (halike : r.Alike r') (hdeed : d.Deed r.id d') (hinner : control.isInner = true)
    (hframe : frame.isInner side = true)
    (hasks : ∀ work, control = .request work → r.Asks side d work frame) :
    (go r' d' control (frame :: stack)).Calm side r d before stack := by
  refine ⟨halike, hdeed, rfl, (ungated hinner).1, fun hgate => absurd hgate (ungated hinner).2, fun f hf => ?_,
    fun work hwork => ⟨frame, rfl, hasks work hwork⟩⟩
  rcases List.mem_cons.1 hf with rfl | hmem
  · exact .inr hframe
  · exact .inl hmem

theorem calm_evaluate (e : Expr) (scope : ScopeId) (hframe : frame.isInner side = true) :
    (go r d (.evaluate e scope) (frame :: stack)).Calm side r d before stack :=
  calm_push ⟨rfl, rfl, rfl, rfl⟩ (.refl d) rfl hframe nofun

theorem calm_raise (halike : r.Alike r') (hdeed : d.Deed r.id d') (e : Raised) :
    (raise r' d' e stack).Calm side r d before stack :=
  calm_go halike hdeed rfl nofun

theorem calm_descend (lower : List Frame) (hinner : control.isInner = true) (hasks : ∀ work, control ≠ .request work)
    (hframes : ∀ f ∈ frame :: lower, f.isInner side = true) :
    (r.descend d control frame (lower ++ stack)).Calm side r d before stack := by
  unfold Run.descend
  split
  · refine ⟨⟨rfl, rfl, rfl, rfl⟩, .refl d, rfl, (ungated hinner).1, fun hgate => absurd hgate (ungated hinner).2,
      fun f hf => ?_, fun work hwork => absurd hwork (hasks work)⟩
    rcases List.mem_append.1 (show f ∈ (frame :: lower) ++ stack from hf) with hnew | hold
    · exact .inr (hframes f hnew)
    · exact .inl hold
  · refine ⟨⟨rfl, rfl, rfl, rfl⟩, .refl d, rfl, rfl, nofun, fun f hf => ?_, nofun⟩
    rcases List.mem_append.1 (show f ∈ lower ++ stack from hf) with hnew | hold
    · exact .inr (hframes f (List.mem_cons_of_mem frame hnew))
    · exact .inl hold

theorem calm_operand (e : Expr) (scope : ScopeId) (hframe : frame.isInner side = true) :
    (r.descend d (.evaluate e scope) frame stack).Calm side r d before stack :=
  calm_descend [] rfl nofun fun f hf => by rwa [List.mem_singleton.1 hf]

theorem calm_value (halike : r.Alike r') (hdeed : d.Deed r.id d') (v : Value) :
    (value r' d' v stack).Calm side r d before stack :=
  calm_go halike hdeed rfl nofun

theorem calm_fresh (heap : Heap) (hdeed : d.Deed r.id d') (v : Value) :
    (value { r with heap } d' v stack).Calm side r d before stack :=
  calm_go ⟨rfl, rfl, rfl, rfl⟩ hdeed rfl nofun

theorem calm_ended (halike : r.Alike r') (hdeed : d.Deed r.id d') :
    (ended r' d' stack).Calm side r d before stack :=
  calm_go halike hdeed rfl nofun

theorem calm_valueOr (result : Except Failure Value) : (valueOr r d result stack).Calm side r d before stack := by
  unfold valueOr
  split
  · exact calm_value ⟨rfl, rfl, rfl, rfl⟩ (.refl d) _
  · exact calm_raise ⟨rfl, rfl, rfl, rfl⟩ (.refl d) _

end Step

namespace Run

open Step

variable {side : Side} {r : Run} {d : Desk} {stack : List Frame} {frame : Frame} {before : Control}

theorem invoke_calm (name : String) (args : List Value) : (r.invoke d name args stack).Calm side r d before stack := by
  unfold invoke
  split
  · rename_i f _
    rcases r.callRoutine_cases d f args stack with ⟨e, hraise⟩ | ⟨-, bindings, hgo⟩
    · rw [hraise]
      exact calm_raise ⟨rfl, rfl, rfl, rfl⟩ (.refl d) e
    · rw [hgo]
      exact calm_push ⟨rfl, rfl, rfl, rfl⟩ (.refl d) rfl rfl nofun
  · obtain ⟨hbus, hpublished⟩ := Builtin.call_bus name r.heap d.host args
    have hhost : d.Deed r.id { d with host := (Builtin.call name r.heap d.host args).host } := .host _ hbus hpublished
    dsimp only
    split
    · refine calm_raise ?_ hhost _
      exact ⟨rfl, rfl, rfl, rfl⟩
    · exact calm_fresh _ hhost _
    · refine calm_push ⟨rfl, rfl, rfl, rfl⟩ hhost rfl rfl fun work hwork => ?_
      cases hwork
      exact .call nofun nofun

theorem evaluate_calm (scope : ScopeId) (e : Expr) : (r.evaluate d scope stack e).Calm side r d before stack := by
  match e with
  | .literal _ l => exact calm_value ⟨rfl, rfl, rfl, rfl⟩ (.refl d) _
  | .var _ name =>
    rw [evaluate]
    split
    · exact calm_value ⟨rfl, rfl, rfl, rfl⟩ (.refl d) _
    · exact calm_raise ⟨rfl, rfl, rfl, rfl⟩ (.refl d) _
  | .binary _ op left right => exact calm_operand left scope rfl
  | .logic _ op left right => exact calm_operand left scope rfl
  | .unary _ op operand => exact calm_operand operand scope rfl
  | .call _ name [] => exact invoke_calm name []
  | .call _ name (first :: rest) => exact calm_operand first scope rfl
  | .array _ [] => exact calm_fresh _ (.refl d) _
  | .array _ (first :: rest) => exact calm_operand first scope rfl
  | .object _ [] => exact calm_fresh _ (.refl d) _
  | .object _ ((key, first) :: rest) => exact calm_operand first scope rfl
  | .template _ segments => exact calm_valueOr _
  | .property _ base key => exact calm_operand base scope rfl

theorem nextTurn_calm (loop : Loop) (body : Block Stmt) (scope : ScopeId) :
    (r.nextTurn d loop body scope stack).Calm side r d before stack := by
  have hturn : (go r d .checkpoint (.turn loop body scope :: stack)).Calm side r d before stack :=
    calm_push ⟨rfl, rfl, rfl, rfl⟩ (.refl d) rfl rfl nofun
  match loop with
  | .counted i n =>
    rw [nextTurn]
    split
    · exact hturn
    · exact calm_ended ⟨rfl, rfl, rfl, rfl⟩ (.refl d)
  | .conditional i condition => exact hturn
  | .each i [] item index => exact calm_ended ⟨rfl, rfl, rfl, rfl⟩ (.refl d)
  | .each i (v :: rest) item index => exact hturn

theorem runTurn_calm (next : Loop) (body : Block Stmt) (scope : ScopeId) (label : String) (bindings : Dict Value) :
    (r.runTurn d next body scope label bindings stack).Calm side r d before stack :=
  calm_push ⟨rfl, rfl, rfl, rfl⟩ (.refl d) rfl rfl nofun

theorem takeTurn_calm (loop : Loop) (body : Block Stmt) (scope : ScopeId) :
    (r.takeTurn d loop body scope stack).Calm side r d before stack := by
  match loop with
  | .counted i n => exact runTurn_calm _ body scope _ _
  | .conditional i condition => exact calm_evaluate condition scope rfl
  | .each i [] item index => exact calm_ended ⟨rfl, rfl, rfl, rfl⟩ (.refl d)
  | .each i (v :: rest) item index => exact runTurn_calm _ body scope _ _

theorem changeFiles_deed (run : RunId) (d : Desk) (task : String) (change : FileStore → Except Fault FileStore) :
    d.Deed run (changeFiles d task change).1 := by
  unfold changeFiles
  split
  · exact .host _ rfl rfl
  · exact .refl d

theorem publish_deed (run : RunId) (d : Desk) (name : String) {entries : List (String × Plain)}
    (htexts : ∀ e ∈ entries, ∃ s, e.2 = .str s) : d.Deed run (d.publish ⟨name, .dict entries⟩) := by
  refine .publish _ (Plain.dict_readable fun e he => ?_)
  obtain ⟨s, hs⟩ := htexts e he
  rw [hs]
  exact Plain.str_readable s

theorem command_calm (r : Run) (d : Desk) (scope : ScopeId) (c : Command Value) :
    r.Alike (r.command d scope c).1 ∧ d.Deed r.id (r.command d scope c).2.1 := by
  match c with
  | .alert _ | .confirm _ _ | .prompt _ _ _ | .launch _ _ | .close (some _) | .window _ _ | .other _ _ =>
    exact ⟨⟨rfl, rfl, rfl, rfl⟩, .refl d⟩
  | .notify _ | .play _ => exact ⟨⟨rfl, rfl, rfl, rfl⟩, publish_deed r.id d _ (by simp)⟩
  | .write _ _ | .mkdir _ | .delete _ => exact ⟨⟨rfl, rfl, rfl, rfl⟩, changeFiles_deed r.id d _ _⟩
  | .read _ _ | .close none | .wait _ =>
    simp only [command]
    split <;> exact ⟨⟨rfl, rfl, rfl, rfl⟩, .refl d⟩

theorem waitFor_asks {duration : Option Value} {ms : Float} (hasked : r.waitMillis duration = .ok ms) {work : Work}
    {task : String} {after : After} (h : r.waitFor d ms = .ask work task after) :
    r.Asks side d work (.collaborator task after) := by
  have hwait := h
  unfold waitFor at h
  dsimp only at h
  split at h
  all_goals
    cases h
    exact .sleep ⟨duration, ms, hasked, _, hwait⟩ _

theorem command_asks {scope : ScopeId} {c : Command Value} {work : Work} {task : String} {after : After}
    (h : (r.command d scope c).2.2 = .ask work task after) : r.Asks side d work (.collaborator task after) := by
  match c with
  | .alert _ | .confirm _ _ | .prompt _ _ _ | .launch _ _ | .close (some _) | .window _ _ | .other _ _ =>
    cases h
    refine .call (fun ms hwork => ?_) fun hframe => ?_
    · cases hwork
    · cases hframe
  | .notify _ | .play _ => cases h
  | .write _ _ | .mkdir _ | .delete _ =>
    simp only [command, changeFiles] at h
    split at h <;> cases h
  | .read _ _ =>
    simp only [command] at h
    split at h <;> cases h
  | .close none =>
    simp only [command] at h
    split at h <;> cases h
    refine .call (fun ms hwork => ?_) fun hframe => ?_
    · cases hwork
    · cases hframe
  | .wait duration =>
    simp only [command] at h
    split at h
    · cases h
    · rename_i hasked
      exact waitFor_asks hasked h

theorem runCommand_calm (scope : ScopeId) (c : Command Value) : (r.runCommand d scope c stack).Calm side r d before stack := by
  obtain ⟨halike, hdeed⟩ := r.command_calm d scope c
  simp only [runCommand]
  split
  · exact calm_ended halike hdeed
  · exact calm_raise halike hdeed _
  · rename_i hask
    refine calm_push halike hdeed rfl rfl fun work hwork => ?_
    cases hwork
    exact command_asks hask

theorem evaluateOperands_calm (c : Command Expr) (given : List Value) (left : List Expr) (scope : ScopeId) :
    (r.evaluateOperands d c given left scope stack).Calm side r d before stack := by
  unfold evaluateOperands
  split
  · exact calm_evaluate _ scope rfl
  · split
    · exact runCommand_calm scope _
    · exact calm_ended ⟨rfl, rfl, rfl, rfl⟩ (.refl d)

theorem perform_calm (scope : ScopeId) (s : Stmt) : (r.perform d scope stack s).Calm side r d before stack := by
  match s with
  | .assign _ (.var _ name) value => exact calm_evaluate value scope rfl
  | .assign _ (.property _ base key) value => exact calm_evaluate base scope rfl
  | .print _ message => exact calm_evaluate message scope rfl
  | .branch _ condition yes no => exact calm_evaluate condition scope rfl
  | .counted _ body count => exact calm_evaluate count scope rfl
  | .conditional _ body condition => exact nextTurn_calm (.conditional 0 condition) body scope
  | .foreach _ item iterable body index => exact calm_evaluate iterable scope rfl
  | .leave _ | .skip _ | .giveBack _ none => exact calm_go ⟨rfl, rfl, rfl, rfl⟩ (.refl d) rfl nofun
  | .giveBack _ (some e) => exact calm_evaluate e scope rfl
  | .define _ name params body => exact calm_ended ⟨rfl, rfl, rfl, rfl⟩ (.refl d)
  | .command _ c => exact evaluateOperands_calm c [] _ scope
  | .attempt _ tryBlock catchBlock errorVar => exact calm_push ⟨rfl, rfl, rfl, rfl⟩ (.refl d) rfl rfl nofun
  | .on _ event body => exact calm_evaluate event scope rfl
  | .emit _ event payload => exact calm_evaluate event scope rfl
  | .evaluate _ e => exact calm_evaluate e scope rfl

theorem giveOperand_calm (v : Value) {frame : Frame} (hgives : frame.gives = some .value) :
    (r.giveValue d v stack frame).Calm side r d before stack := by
  cases frame with
  | left op right scope => exact calm_evaluate right scope rfl
  | right op left =>
    simp only [giveValue]
    split
    · exact calm_fresh _ (.refl d) _
    · exact calm_raise ⟨rfl, rfl, rfl, rfl⟩ (.refl d) _
  | logic op right scope =>
    simp only [giveValue]
    split
    · exact calm_value ⟨rfl, rfl, rfl, rfl⟩ (.refl d) _
    · exact calm_value ⟨rfl, rfl, rfl, rfl⟩ (.refl d) _
    · exact calm_evaluate right scope rfl
  | unary op => exact calm_valueOr _
  | base key scope => exact calm_evaluate key scope rfl
  | key base => exact calm_valueOr _
  | arguments name given left scope =>
    cases left with
    | nil => exact invoke_calm name _
    | cons e rest => exact calm_evaluate e scope rfl
  | elements given left scope =>
    cases left with
    | nil => exact calm_fresh _ (.refl d) _
    | cons e rest => exact calm_evaluate e scope rfl
  | entries given key left scope =>
    cases left with
    | nil => exact calm_fresh _ (.refl d) _
    | cons e rest => exact calm_evaluate e.2 scope rfl
  | truth | call _ | requested => exact calm_value ⟨rfl, rfl, rfl, rfl⟩ (.refl d) _
  | _ => cases hgives

theorem giveStatement_calm (v : Value) {frame : Frame} (hgives : frame.gives ≠ some .value) :
    (r.giveValue d v stack frame).Calm side r d before stack := by
  cases frame with
  | assignVar name scope => exact calm_ended ⟨rfl, rfl, rfl, rfl⟩ (.refl d)
  | assignBase key value scope => exact calm_evaluate key scope rfl
  | assignKey base value scope => exact calm_evaluate value scope rfl
  | assignValue base key =>
    simp only [giveValue]
    split
    · exact calm_ended ⟨rfl, rfl, rfl, rfl⟩ (.refl d)
    · exact calm_raise ⟨rfl, rfl, rfl, rfl⟩ (.refl d) _
  | print => exact calm_ended ⟨rfl, rfl, rfl, rfl⟩ (publish_deed r.id d _ (by simp))
  | branch yes no scope =>
    simp only [giveValue]
    split
    · exact calm_go ⟨rfl, rfl, rfl, rfl⟩ (.refl d) rfl (by simp)
    · split
      · exact calm_ended ⟨rfl, rfl, rfl, rfl⟩ (.refl d)
      · exact calm_go ⟨rfl, rfl, rfl, rfl⟩ (.refl d) rfl (by simp)
  | count body scope =>
    simp only [giveValue]
    split
    · exact nextTurn_calm _ body scope
    · exact calm_raise ⟨rfl, rfl, rfl, rfl⟩ (.refl d) _
  | items item index body scope =>
    simp only [giveValue]
    split
    · exact nextTurn_calm _ body scope
    · exact calm_raise ⟨rfl, rfl, rfl, rfl⟩ (.refl d) _
  | giveBack => exact calm_go ⟨rfl, rfl, rfl, rfl⟩ (.refl d) rfl (by simp)
  | operands c given left scope => exact evaluateOperands_calm c _ left scope
  | subscribe body scope => exact calm_ended ⟨rfl, rfl, rfl, rfl⟩ (.subscribe _ body scope)
  | emitName payload scope =>
    cases payload with
    | none => exact calm_ended ⟨rfl, rfl, rfl, rfl⟩ (.publish _ Plain.null_readable)
    | some payload => exact calm_evaluate payload scope rfl
  | emitPayload name => exact calm_ended ⟨rfl, rfl, rfl, rfl⟩ (.publish _ (r.heap.plain_readable v))
  | discard => exact calm_ended ⟨rfl, rfl, rfl, rfl⟩ (.refl d)
  | test i condition body scope =>
    simp only [giveValue]
    split
    · exact calm_ended ⟨rfl, rfl, rfl, rfl⟩ (.refl d)
    · split
      · exact calm_raise ⟨rfl, rfl, rfl, rfl⟩ (.refl d) _
      · exact runTurn_calm _ body scope _ _
  | following | located | entering | turn | round | attempt | handler | program | collaborator | clearing | closing =>
    exact calm_value ⟨rfl, rfl, rfl, rfl⟩ (.refl d) _
  | _ => exact absurd rfl hgives

theorem giveValue_calm (v : Value) (frame : Frame) : (r.giveValue d v stack frame).Calm side r d before stack :=
  if hgives : frame.gives = some .value then giveOperand_calm v hgives else giveStatement_calm v hgives

theorem waitClear_calm : (r.waitClear d side stack).Calm side r d .clear stack := by
  cases side with
  | worker => exact calm_gate (.passed rfl)
  | main =>
    unfold waitClear
    split
    · rename_i hclear
      exact calm_gate (.passed hclear)
    · rename_i hbusy
      refine calm_push ⟨rfl, rfl, rfl, rfl⟩ (.refl d) rfl rfl fun work hwork => ?_
      cases hwork
      exact .idle (Bool.eq_false_iff.2 hbusy)

theorem pass_calm (frame : Frame) : (r.pass d stack frame).Calm side r d .passed stack := by
  unfold pass
  split
  · exact calm_gate (.performed _ _)
  · exact takeTurn_calm _ _ _
  · exact calm_ended ⟨rfl, rfl, rfl, rfl⟩ (.refl d)

theorem follow_calm (after : After) (p : Plain) : (r.follow d after p stack).Calm side r d before stack := by
  cases after with
  | nothing | storeTruth into scope | storeText into scope => exact calm_ended ⟨rfl, rfl, rfl, rfl⟩ (.refl d)
  | timeout => exact calm_raise ⟨rfl, rfl, rfl, rfl⟩ (.refl d) _

theorem recheck_calm : (r.recheck d stack).Calm side r d .recheck stack := by
  unfold recheck
  split
  · exact calm_raise ⟨rfl, rfl, rfl, rfl⟩ (.refl d) _
  · rename_i hnone
    exact calm_gate (.checked hnone)

theorem endBlock_calm (signal : Option Signal) {frame : Frame} (hframe : frame.isGround = false) :
    (r.endBlock d signal stack frame).Calm side r d before stack := by
  have hended : (go r d (.ended signal) stack).Calm side r d before stack := calm_go ⟨rfl, rfl, rfl, rfl⟩ (.refl d) rfl (by simp)
  match frame with
  | .following stmts scope =>
    simp only [endBlock]
    split <;> exact calm_go ⟨rfl, rfl, rfl, rfl⟩ (.refl d) rfl (by simp)
  | .round loop body scope =>
    simp only [endBlock]
    split
    · exact calm_ended ⟨rfl, rfl, rfl, rfl⟩ (.refl d)
    · exact calm_go ⟨rfl, rfl, rfl, rfl⟩ (.refl d) rfl (by simp)
    · exact nextTurn_calm loop body scope
    · exact nextTurn_calm loop body scope
  | .call _ =>
    refine calm_value ?_ (.refl d) _
    exact ⟨rfl, rfl, rfl, rfl⟩
  | .located _ | .attempt _ _ _ | .entering _ _ | .assignVar _ _ | .assignBase _ _ _ | .assignKey _ _ _
  | .assignValue _ _ | .print | .branch _ _ _ | .count _ _ | .items _ _ _ _ | .giveBack | .operands _ _ _ _
  | .subscribe _ _ | .emitName _ _ | .emitPayload _ | .discard | .turn _ _ _ | .test _ _ _ _ | .left _ _ _ | .right _ _
  | .logic _ _ _ | .truth | .unary _ | .base _ _ | .key _ | .arguments _ _ _ _ | .elements _ _ _ | .entries _ _ _ _
  | .collaborator _ _ | .requested | .clearing => exact hended

theorem unwind_calm (e : Raised) {frame : Frame} (hframe : frame.isGround = false) :
    (r.unwind d e stack frame).Calm side r d before stack := by
  have hraise (e : Raised) : (raise r d e stack).Calm side r d before stack := calm_raise ⟨rfl, rfl, rfl, rfl⟩ (.refl d) e
  match frame with
  | .located span =>
    simp only [unwind]
    split <;> exact hraise _
  | .attempt catchBlock errorVar scope =>
    simp only [unwind]
    split
    · split
      · exact calm_go ⟨rfl, rfl, rfl, rfl⟩ (.refl d) rfl (by simp)
      · exact hraise _
    · exact hraise _
  | .call _ =>
    have hleft : r.Alike { r with callDepth := r.callDepth - 1 } := ⟨rfl, rfl, rfl, rfl⟩
    simp only [unwind]
    split <;> exact calm_raise hleft (.refl d) _
  | .following _ _ | .entering _ _ | .assignVar _ _ | .assignBase _ _ _ | .assignKey _ _ _ | .assignValue _ _ | .print
  | .branch _ _ _ | .count _ _ | .items _ _ _ _ | .giveBack | .operands _ _ _ _ | .subscribe _ _ | .emitName _ _
  | .emitPayload _ | .discard | .turn _ _ _ | .test _ _ _ _ | .round _ _ _ | .left _ _ _ | .right _ _ | .logic _ _ _
  | .truth | .unary _ | .base _ _ | .key _ | .arguments _ _ _ _ | .elements _ _ _ | .entries _ _ _ _
  | .collaborator _ _ | .requested | .clearing => exact hraise e

theorem reply_calm (result : ServiceResult) {frame : Frame} (hframe : frame.isGround = false) :
    (r.reply d result stack frame).Calm side r d (.replied result) (frame :: stack) := by
  unfold reply
  split
  · refine Calm.below ?_ _
    split
    · exact follow_calm _ _
    · exact calm_raise ⟨rfl, rfl, rfl, rfl⟩ (.refl d) _
    · exact calm_raise ⟨rfl, rfl, rfl, rfl⟩ (.refl d) _
    · exact calm_ended ⟨rfl, rfl, rfl, rfl⟩ (.refl d)
    · exact calm_ended ⟨rfl, rfl, rfl, rfl⟩ (.refl d)
  · refine Calm.below ?_ _
    split
    · exact calm_value ⟨rfl, rfl, rfl, rfl⟩ (.refl d) _
    · exact calm_raise ⟨rfl, rfl, rfl, rfl⟩ (.refl d) _
    · exact calm_value ⟨rfl, rfl, rfl, rfl⟩ (.refl d) _
    · exact calm_value ⟨rfl, rfl, rfl, rfl⟩ (.refl d) _
  · exact ⟨⟨rfl, rfl, rfl, rfl⟩, .refl d, rfl, rfl, fun _ => .woken result List.mem_cons_self,
      fun _ hf => .inl (List.mem_cons_of_mem _ hf), nofun⟩
  · cases hframe
  · exact (calm_ended ⟨rfl, rfl, rfl, rfl⟩ (.refl d)).below _

theorem step_calm {t : Thread} (h : t.computes = true) : (step side r d t).Calm side r d t.control t.stack := by
  have hground {frame : Frame} (hframe : (!frame.isGround) = true) : frame.isGround = false := by
    rwa [Bool.not_eq_true'] at hframe
  obtain ⟨control, stack⟩ := t
  cases control with
  | statements stmts scope =>
    cases stmts with
    | nil => exact calm_ended ⟨rfl, rfl, rfl, rfl⟩ (.refl d)
    | cons s rest =>
      refine calm_descend [.located s.span, .following rest scope] rfl nofun fun f hf => ?_
      simp only [List.mem_cons, List.not_mem_nil, or_false] at hf
      rcases hf with rfl | rfl | rfl <;> rfl
  | perform s scope => exact perform_calm scope s
  | evaluate e scope => exact evaluate_calm scope e
  | recheck => exact recheck_calm
  | clear => exact waitClear_calm
  | value v =>
    cases stack with
    | nil => cases h
    | cons frame stack => exact (giveValue_calm v frame).below frame
  | passed =>
    cases stack with
    | nil => cases h
    | cons frame stack => exact (pass_calm frame).below frame
  | ended signal =>
    cases stack with
    | nil => cases h
    | cons frame stack => exact (endBlock_calm signal (hground h)).below frame
  | raised e =>
    cases stack with
    | nil => cases h
    | cons frame stack => exact (unwind_calm e (hground h)).below frame
  | replied result =>
    cases stack with
    | nil => cases h
    | cons frame stack => exact reply_calm result (hground h)
  | _ => cases h

end Run

end DeskScript
