import DeskScript.Proofs.Machine.Escaping

set_option autoImplicit false

/-!
# What a step puts on the stack

A step takes the frame on top of the stack, if its control is meant for that, and puts others on what is left. The call
depth changes by the calls among them. Every statement that they carry is a part of one that was there, or of a function
of the run. The functions of the run are written by a definition, and when its main thread begins. `Run.step_builds` says
so for all steps, `Acts.puts` and `Acts.functions` say it of moves.
-/

namespace DeskScript

namespace Stmt

def parts : Stmt → List Stmt
  | branch _ _ yes none => yes.statements
  | branch _ _ yes (some no) => yes.statements ++ no.statements
  | counted _ body _ | conditional _ body _ | foreach _ _ _ body _ | define _ _ _ body | on _ _ body => body.statements
  | attempt _ tryBlock catchBlock _ => tryBlock.statements ++ catchBlock.statements
  | assign .. | print .. | leave _ | skip _ | giveBack .. | command .. | emit .. | evaluate .. => []

/-- What holds of a statement in the scope where it stands holds of its parts, in whatever scopes they come to stand. -/
def Closed (P : ScopeId → Stmt → Prop) : Prop := ∀ scope s, P scope s → ∀ part ∈ s.parts, ∀ inner, P inner part

end Stmt

/-- The statements of the frame satisfy `P` in their scope, and those that wait for a scope satisfy it in all; a block that
subscribes comes from an `on` for which `P` holds. -/
def Frame.Carries (P : ScopeId → Stmt → Prop) : Frame → Prop
  | following stmts scope => ∀ s ∈ stmts, P scope s
  | entering s scope => P scope s
  | branch yes none _ => ∀ s ∈ yes.statements, ∀ scope, P scope s
  | branch yes (some no) _ => (∀ s ∈ yes.statements, ∀ scope, P scope s) ∧ ∀ s ∈ no.statements, ∀ scope, P scope s
  | count body _ | items _ _ body _ | turn _ body _ | test _ _ body _ | round _ body _ =>
    ∀ s ∈ body.statements, ∀ scope, P scope s
  | attempt catchBlock _ _ => ∀ s ∈ catchBlock.statements, ∀ scope, P scope s
  | subscribe body _ => ∃ span event scope, P scope (.on span event body)
  | _ => True

def Control.Carries (P : ScopeId → Stmt → Prop) : Control → Prop
  | statements stmts scope => ∀ s ∈ stmts, P scope s
  | perform s scope => P scope s
  | _ => True

structure Thread.Carries (P : ScopeId → Stmt → Prop) (t : Thread) : Prop where
  control : t.control.Carries P
  frames : ∀ frame ∈ t.stack, frame.Carries P

structure Run.Carries (P : ScopeId → Stmt → Prop) (r : Run) : Prop where
  program : ∀ p, r.program = some p → ∀ s ∈ p.statements, P 0 s
  functions : ∀ name f, r.functions.get? name = some f → ∀ s ∈ f.body.statements, ∀ scope, P scope s

theorem Thread.carries_any (t : Thread) : t.Carries fun _ _ => True := by
  refine ⟨?_, fun frame _ => ?_⟩
  · cases t.control <;> simp [Control.Carries]
  · cases frame with
    | branch yes no => cases no <;> simp [Frame.Carries]
    | subscribe => exact ⟨default, .literal default .null, 0, trivial⟩
    | _ => simp [Frame.Carries]

theorem Run.carries_any (r : Run) : r.Carries fun _ _ => True := ⟨fun _ _ _ _ => trivial, fun _ _ _ _ _ _ => trivial⟩

structure Run.Same (r r' : Run) : Prop where
  program : r'.program = r.program
  functions : r'.functions = r.functions
  callDepth : r'.callDepth = r.callDepth

theorem Run.Same.trans {r r' r'' : Run} (h : r.Same r') (h' : r'.Same r'') : r.Same r'' :=
  ⟨h'.program.trans h.program, h'.functions.trans h.functions, h'.callDepth.trans h.callDepth⟩

theorem Run.same_heap (r : Run) (heap : Heap) : r.Same { r with heap } := ⟨rfl, rfl, rfl⟩

theorem Run.same_governor (r : Run) (governor : Governor) : r.Same { r with governor } := ⟨rfl, rfl, rfl⟩

theorem Run.Quiet.same {r r' : Run} (h : r.Quiet r') : r.Same r' := ⟨h.program, h.functions, h.callDepth⟩

theorem Run.Carries.same {P : ScopeId → Stmt → Prop} {r r' : Run} (h : r.Carries P) (hsame : r.Same r') : r'.Carries P :=
  ⟨fun p hp => h.program p (hsame.program ▸ hp), fun name f hf => h.functions name f (hsame.functions ▸ hf)⟩

def Control.isGiven : Control → Bool
  | value _ | ended _ | raised _ | passed | replied _ => true
  | _ => false

def Thread.base (t : Thread) : List Frame := if t.control.isGiven then t.stack.tail else t.stack

theorem calls_append (above base : List Frame) : calls (above ++ base) = calls above + calls base := by
  induction above with
  | nil => exact (Nat.zero_add _).symm
  | cons frame above ih =>
    cases frame with
    | call => rw [List.cons_append, calls, calls, ih, Nat.add_right_comm]
    | _ => exact ih

def Frame.isRoutine : Frame → Bool
  | .call _ => true
  | _ => false

theorem calls_cons_of_not {frame : Frame} (h : frame.isRoutine = false) (stack : List Frame) :
    calls (frame :: stack) = calls stack := by
  cases frame with
  | call => cases h
  | _ => rfl

def Run.performs (r : Run) (scope : ScopeId) : Stmt → Dict Routine
  | .define _ name params body => (r.define name params body scope).functions
  | _ => r.functions

def Run.begins (r : Run) : Side → Dict Routine
  | .main =>
    match r.program with
    | some p => (r.hoist p.statements).functions
    | none => r.functions
  | .worker => r.functions

def Thread.table (t : Thread) (side : Side) (r : Run) : Dict Routine :=
  match t.control with
  | .perform s scope => r.performs scope s
  | .start => r.begins side
  | _ => r.functions

/-- The step has left its run with the functions of `table`. It has put frames on `base`; without the calls among them, the
call depth is `depth`. It puts one call at most, and only where the limit leaves room for it. -/
structure Step.Builds (P : ScopeId → Stmt → Prop) (table : Dict Routine) (base : List Frame) (depth : Nat) (s : Step) :
    Prop where
  run : s.run.Carries P
  functions : s.run.functions = table
  control : s.thread.control.Carries P
  stack : ∃ above, s.thread.stack = above ++ base ∧ s.run.callDepth = depth + calls above ∧
    (calls above = 0 ∨ calls above = 1 ∧ (depth : Int) < s.run.limits.maxCallDepth) ∧ ∀ frame ∈ above, frame.Carries P

theorem Thread.base_subset (t : Thread) : t.base ⊆ t.stack := by
  unfold base
  split
  · exact (List.tail_suffix _).subset
  · exact List.Subset.refl _

namespace Step

variable {P : ScopeId → Stmt → Prop} {r r' : Run} {d : Desk} {stack base : List Frame} {frame : Frame} {control : Control}

theorem Builds.thread {s : Step} {t : Thread} {table : Dict Routine} {depth : Nat}
    (h : s.Builds P table t.base depth) (ht : t.Carries P) : s.thread.Carries P := by
  obtain ⟨above, hstack, -, -, hframes⟩ := h.stack
  refine ⟨h.control, fun frame hframe => ?_⟩
  rw [hstack] at hframe
  rcases List.mem_append.1 hframe with hframe | hframe
  · exact hframes frame hframe
  · exact ht.frames frame (t.base_subset hframe)

theorem builds_at (hr : r.Carries P) (hsame : r.Same r') (hcontrol : control.Carries P) (pace : Pace) :
    Step.Builds P r.functions base r.callDepth ⟨r', d, ⟨control, base⟩, pace⟩ :=
  ⟨hr.same hsame, hsame.functions, hcontrol, [], rfl, hsame.callDepth, .inl rfl, nofun⟩

theorem builds_go (hr : r.Carries P) (hsame : r.Same r') (hcontrol : control.Carries P) :
    (go r' d control base).Builds P r.functions base r.callDepth := builds_at hr hsame hcontrol .go

theorem builds_push (hr : r.Carries P) (hsame : r.Same r') (hcontrol : control.Carries P) (hframe : frame.Carries P)
    (hcalls : calls [frame] = 0) : (go r' d control (frame :: base)).Builds P r.functions base r.callDepth := by
  refine ⟨hr.same hsame, hsame.functions, hcontrol, [frame], rfl, ?_, .inl hcalls,
    fun f hf => List.mem_singleton.1 hf ▸ hframe⟩
  rw [hcalls]
  exact hsame.callDepth

theorem builds_evaluate (hr : r.Carries P) (e : Expr) (scope : ScopeId) (hframe : frame.Carries P)
    (hcalls : calls [frame] = 0) : (go r d (.evaluate e scope) (frame :: base)).Builds P r.functions base r.callDepth :=
  builds_push hr ⟨rfl, rfl, rfl⟩ trivial hframe hcalls

theorem builds_descend (hr : r.Carries P) (lower : List Frame) (hcontrol : control.Carries P)
    (hframes : ∀ f ∈ frame :: lower, f.Carries P) (hcalls : calls (frame :: lower) = 0) :
    (r.descend d control frame (lower ++ base)).Builds P r.functions base r.callDepth := by
  unfold Run.descend
  split
  · refine ⟨hr, rfl, hcontrol, frame :: lower, rfl, ?_, .inl hcalls, hframes⟩
    rw [hcalls]
    rfl
  · have hlower : calls lower = 0 := Nat.le_zero.1 (hcalls ▸ calls_le_cons frame lower)
    refine ⟨hr, rfl, trivial, lower, rfl, ?_, .inl hlower, fun f hf => hframes f (List.mem_cons_of_mem frame hf)⟩
    rw [hlower]
    rfl

theorem builds_operand (hr : r.Carries P) (e : Expr) (scope : ScopeId) (hframe : frame.Carries P)
    (hcalls : calls [frame] = 0) : (r.descend d (.evaluate e scope) frame base).Builds P r.functions base r.callDepth :=
  builds_descend hr [] trivial (fun _ hf => List.mem_singleton.1 hf ▸ hframe) hcalls

theorem builds_raise (hr : r.Carries P) (hsame : r.Same r') (e : Raised) :
    (raise r' d e base).Builds P r.functions base r.callDepth :=
  builds_go hr hsame trivial

theorem builds_value (hr : r.Carries P) (hsame : r.Same r') (v : Value) :
    (value r' d v base).Builds P r.functions base r.callDepth :=
  builds_go hr hsame trivial

theorem builds_ended (hr : r.Carries P) (hsame : r.Same r') : (ended r' d base).Builds P r.functions base r.callDepth :=
  builds_go hr hsame trivial

theorem builds_valueOr (hr : r.Carries P) (result : Except Failure Value) :
    (valueOr r d result base).Builds P r.functions base r.callDepth := by
  cases result with
  | ok v => exact builds_value hr ⟨rfl, rfl, rfl⟩ v
  | error e => exact builds_raise hr ⟨rfl, rfl, rfl⟩ _

end Step

namespace Run

open Step

variable {P : ScopeId → Stmt → Prop} {side : Side} {r : Run} {d : Desk} {t : Thread} {stack base : List Frame}
  {frame : Frame}

theorem callRoutine_builds (hr : r.Carries P) {f : Routine} (hf : ∀ s ∈ f.body.statements, ∀ scope, P scope s)
    (args : List Value) : (r.callRoutine d f args base).Builds P r.functions base r.callDepth := by
  rcases r.callRoutine_cases d f args base with ⟨e, hraise⟩ | ⟨hroom, bindings, hgo⟩
  · rw [hraise]
    exact builds_raise hr ⟨rfl, rfl, rfl⟩ e
  · rw [hgo]
    refine ⟨⟨hr.program, hr.functions⟩, rfl, fun s hs => hf s hs _, [.call f.name], rfl, rfl, .inr ⟨rfl, hroom⟩,
      fun frame hframe => ?_⟩
    exact List.mem_singleton.1 hframe ▸ trivial

theorem invoke_builds (hr : r.Carries P) (name : String) (args : List Value) :
    (r.invoke d name args base).Builds P r.functions base r.callDepth := by
  unfold invoke
  split
  · rename_i f hf
    exact callRoutine_builds hr (hr.functions name f hf) args
  · dsimp only
    split
    · exact builds_raise hr (r.same_heap _) _
    · exact builds_value hr (r.same_heap _) _
    · exact builds_push hr (r.same_heap _) trivial trivial rfl

theorem evaluate_builds (hr : r.Carries P) (scope : ScopeId) (e : Expr) :
    (r.evaluate d scope base e).Builds P r.functions base r.callDepth := by
  cases e with
  | literal span l => exact builds_value hr ⟨rfl, rfl, rfl⟩ _
  | var span name =>
    rw [evaluate]
    split
    · exact builds_value hr ⟨rfl, rfl, rfl⟩ _
    · exact builds_raise hr ⟨rfl, rfl, rfl⟩ _
  | call span name args =>
    cases args with
    | nil => exact invoke_builds hr name []
    | cons first rest => exact builds_operand hr first scope trivial rfl
  | array span items =>
    cases items with
    | nil => exact builds_value hr (r.same_heap _) _
    | cons first rest => exact builds_operand hr first scope trivial rfl
  | object span entries =>
    cases entries with
    | nil => exact builds_value hr (r.same_heap _) _
    | cons first rest => exact builds_operand hr first.2 scope trivial rfl
  | template span segments => exact builds_valueOr hr _
  | _ => exact builds_operand hr _ scope trivial rfl

theorem nextTurn_builds (hr : r.Carries P) (loop : Loop) {body : Block Stmt}
    (hbody : ∀ s ∈ body.statements, ∀ scope, P scope s) (scope : ScopeId) :
    (r.nextTurn d loop body scope base).Builds P r.functions base r.callDepth := by
  unfold nextTurn
  split
  · split
    · exact builds_push hr ⟨rfl, rfl, rfl⟩ trivial hbody rfl
    · exact builds_ended hr ⟨rfl, rfl, rfl⟩
  · exact builds_push hr ⟨rfl, rfl, rfl⟩ trivial hbody rfl
  · exact builds_ended hr ⟨rfl, rfl, rfl⟩
  · exact builds_push hr ⟨rfl, rfl, rfl⟩ trivial hbody rfl

theorem takeTurn_builds (hr : r.Carries P) (loop : Loop) {body : Block Stmt}
    (hbody : ∀ s ∈ body.statements, ∀ scope, P scope s) (scope : ScopeId) :
    (r.takeTurn d loop body scope base).Builds P r.functions base r.callDepth := by
  unfold takeTurn
  split
  · exact builds_push hr ⟨rfl, rfl, rfl⟩ (fun s hs => hbody s hs _) hbody rfl
  · exact builds_push hr ⟨rfl, rfl, rfl⟩ trivial hbody rfl
  · exact builds_push hr ⟨rfl, rfl, rfl⟩ (fun s hs => hbody s hs _) hbody rfl
  · exact builds_ended hr ⟨rfl, rfl, rfl⟩

theorem command_same (r : Run) (d : Desk) (scope : ScopeId) (c : Command Value) :
    r.Same (r.command d scope c).1 := by
  cases c with
  | read path into =>
    simp only [command]
    split <;> exact ⟨rfl, rfl, rfl⟩
  | wait duration =>
    simp only [command]
    split <;> exact ⟨rfl, rfl, rfl⟩
  | close target =>
    cases target with
    | some target => exact ⟨rfl, rfl, rfl⟩
    | none =>
      simp only [command]
      split <;> exact ⟨rfl, rfl, rfl⟩
  | _ => exact ⟨rfl, rfl, rfl⟩

theorem evaluateOperands_builds (hr : r.Carries P) (c : Command Expr) (given : List Value) (left : List Expr)
    (scope : ScopeId) : (r.evaluateOperands d c given left scope base).Builds P r.functions base r.callDepth := by
  unfold evaluateOperands
  split
  · exact builds_evaluate hr _ scope trivial rfl
  · split
    · rename_i filled _
      have hsame := r.command_same d scope filled
      simp only [runCommand]
      split
      · exact builds_ended hr hsame
      · exact builds_raise hr hsame _
      · exact builds_push hr hsame trivial trivial rfl
    · exact builds_ended hr ⟨rfl, rfl, rfl⟩

theorem define_carries (hr : r.Carries P) (name : String) (params : List String) {body : Block Stmt} (closure : ScopeId)
    (hbody : ∀ s ∈ body.statements, ∀ scope, P scope s) : (r.define name params body closure).Carries P := by
  refine ⟨hr.program, fun other f hf => ?_⟩
  by_cases hname : other = name
  · subst hname
    rw [define, Dict.get?_insert_self] at hf
    cases hf
    exact hbody
  · rw [define, Dict.get?_insert_of_ne _ _ _ _ hname] at hf
    exact hr.functions other f hf

theorem perform_builds (hP : Stmt.Closed P) (hr : r.Carries P) (scope : ScopeId) {s : Stmt} (hs : P scope s) :
    (r.perform d scope base s).Builds P (r.performs scope s) base r.callDepth := by
  have hparts := hP scope s hs
  cases s with
  | assign span target value => cases target <;> exact builds_evaluate hr _ scope trivial rfl
  | branch span condition yes no =>
    refine builds_evaluate hr condition scope ?_ rfl
    cases no with
    | none => exact hparts
    | some no =>
      exact ⟨fun s hs => hparts s (List.mem_append_left _ hs), fun s hs => hparts s (List.mem_append_right _ hs)⟩
  | counted span body count => exact builds_evaluate hr count scope hparts rfl
  | conditional span body condition => exact nextTurn_builds hr (.conditional 0 condition) hparts scope
  | foreach span item iterable body index => exact builds_evaluate hr iterable scope hparts rfl
  | leave | skip => exact builds_go hr ⟨rfl, rfl, rfl⟩ trivial
  | giveBack span value =>
    cases value with
    | none => exact builds_go hr ⟨rfl, rfl, rfl⟩ trivial
    | some e => exact builds_evaluate hr e scope trivial rfl
  | define span name params body =>
    exact ⟨define_carries hr name params scope hparts, rfl, trivial, [], rfl, rfl, .inl rfl, nofun⟩
  | command span c => exact evaluateOperands_builds hr c [] _ scope
  | attempt span tryBlock catchBlock errorVar =>
    exact builds_push hr ⟨rfl, rfl, rfl⟩ (fun s hs => hparts s (List.mem_append_left _ hs) _)
      (fun s hs => hparts s (List.mem_append_right _ hs)) rfl
  | on span event body => exact builds_evaluate hr event scope ⟨span, event, scope, hs⟩ rfl
  | print | emit | evaluate => exact builds_evaluate hr _ scope trivial rfl

theorem giveBranch_builds (hr : r.Carries P) (v : Value) {yes : Block Stmt} {no : Option (Block Stmt)} {scope : ScopeId}
    (hframe : (Frame.branch yes no scope).Carries P) :
    (r.giveValue d v base (.branch yes no scope)).Builds P r.functions base r.callDepth := by
  have hyes : ∀ s ∈ yes.statements, ∀ scope, P scope s := by
    cases no with
    | none => exact hframe
    | some no => exact hframe.1
  simp only [giveValue]
  split
  · exact builds_go hr ⟨rfl, rfl, rfl⟩ fun s hs => hyes s hs _
  · split
    · exact builds_ended hr ⟨rfl, rfl, rfl⟩
    · exact builds_go hr ⟨rfl, rfl, rfl⟩ fun s hs => hframe.2 s hs _

theorem giveOperand_builds (hr : r.Carries P) (v : Value) {frame : Frame} (hneed : frame.need = .value)
    (hgives : frame.gives = some .value) : (r.giveValue d v base frame).Builds P r.functions base r.callDepth := by
  cases frame with
  | left => exact builds_evaluate hr _ _ trivial rfl
  | right =>
    simp only [giveValue]
    split
    · exact builds_value hr (r.same_heap _) _
    · exact builds_raise hr ⟨rfl, rfl, rfl⟩ _
  | logic =>
    simp only [giveValue]
    split
    · exact builds_value hr ⟨rfl, rfl, rfl⟩ _
    · exact builds_value hr ⟨rfl, rfl, rfl⟩ _
    · exact builds_evaluate hr _ _ trivial rfl
  | truth => exact builds_value hr ⟨rfl, rfl, rfl⟩ _
  | unary | key => exact builds_valueOr hr _
  | base => exact builds_evaluate hr _ _ trivial rfl
  | arguments name given left scope =>
    cases left with
    | nil => exact invoke_builds hr name _
    | cons e rest => exact builds_evaluate hr e scope trivial rfl
  | elements given left scope =>
    cases left with
    | nil => exact builds_value hr (r.same_heap _) _
    | cons e rest => exact builds_evaluate hr e scope trivial rfl
  | entries given key left scope =>
    cases left with
    | nil => exact builds_value hr (r.same_heap _) _
    | cons e rest => exact builds_evaluate hr e.2 scope trivial rfl
  | call | requested => cases hneed
  | _ => cases hgives

theorem giveStatement_builds (hr : r.Carries P) (v : Value) {frame : Frame} (hframe : frame.Carries P)
    (hneed : frame.need = .value) (hgives : frame.gives = some .ending) :
    (r.giveValue d v base frame).Builds P r.functions base r.callDepth := by
  cases frame with
  | assignVar name scope => exact builds_ended hr ⟨rfl, rfl, rfl⟩
  | assignBase | assignKey => exact builds_evaluate hr _ _ trivial rfl
  | assignValue =>
    simp only [giveValue]
    split
    · exact builds_ended hr ⟨rfl, rfl, rfl⟩
    · exact builds_raise hr ⟨rfl, rfl, rfl⟩ _
  | print => exact builds_ended hr ⟨rfl, rfl, rfl⟩
  | branch => exact giveBranch_builds hr v hframe
  | count body scope =>
    simp only [giveValue]
    split
    · exact nextTurn_builds hr _ hframe scope
    · exact builds_raise hr ⟨rfl, rfl, rfl⟩ _
  | items item index body scope =>
    simp only [giveValue]
    split
    · exact nextTurn_builds hr _ hframe scope
    · exact builds_raise hr ⟨rfl, rfl, rfl⟩ _
  | giveBack => exact builds_go hr ⟨rfl, rfl, rfl⟩ trivial
  | operands c given left scope => exact evaluateOperands_builds hr c _ left scope
  | subscribe body scope => exact builds_ended hr ⟨rfl, rfl, rfl⟩
  | emitName payload scope =>
    cases payload with
    | none => exact builds_ended hr ⟨rfl, rfl, rfl⟩
    | some payload => exact builds_evaluate hr payload scope trivial rfl
  | emitPayload | discard => exact builds_ended hr ⟨rfl, rfl, rfl⟩
  | test i condition body scope =>
    simp only [giveValue]
    split
    · exact builds_ended hr ⟨rfl, rfl, rfl⟩
    · split
      · exact builds_raise hr ⟨rfl, rfl, rfl⟩ _
      · exact builds_push hr ⟨rfl, rfl, rfl⟩ (fun s hs => hframe s hs _) hframe rfl
  | _ => simp [Frame.need, Frame.gives] at hneed hgives

theorem giveValue_builds (hr : r.Carries P) (v : Value) {frame : Frame} (hframe : frame.Carries P)
    (hneed : frame.need = .value) : (r.giveValue d v base frame).Builds P r.functions base r.callDepth := by
  match hgives : frame.gives with
  | some .value => exact giveOperand_builds hr v hneed hgives
  | some .ending => exact giveStatement_builds hr v hframe hneed hgives
  | some .leave | some .reply | none => cases frame <;> simp [Frame.need, Frame.gives] at hneed hgives

theorem checkpoint_builds (hr : r.Carries P) : (r.checkpoint d base).Builds P r.functions base r.callDepth := by
  unfold checkpoint
  split
  · exact builds_raise hr ⟨rfl, rfl, rfl⟩ _
  · dsimp only
    split
    · exact builds_raise hr (r.same_governor _) _
    · refine builds_at hr (r.same_governor _) ?_ .yield
      exact trivial
    · exact builds_go hr (r.same_governor _) trivial

theorem recheck_builds (hr : r.Carries P) : (r.recheck d base).Builds P r.functions base r.callDepth := by
  unfold recheck
  split
  · exact builds_raise hr ⟨rfl, rfl, rfl⟩ _
  · exact builds_go hr ⟨rfl, rfl, rfl⟩ trivial

theorem waitClear_builds (hr : r.Carries P) (side : Side) :
    (r.waitClear d side base).Builds P r.functions base r.callDepth := by
  unfold waitClear
  split
  · exact builds_go hr ⟨rfl, rfl, rfl⟩ trivial
  · exact builds_push hr ⟨rfl, rfl, rfl⟩ trivial trivial rfl

theorem pass_builds (hr : r.Carries P) {frame : Frame} (hframe : frame.Carries P) :
    (r.pass d base frame).Builds P r.functions base r.callDepth := by
  cases frame with
  | entering s scope => exact builds_go hr ⟨rfl, rfl, rfl⟩ hframe
  | turn loop body scope => exact takeTurn_builds hr loop hframe scope
  | _ => exact builds_ended hr ⟨rfl, rfl, rfl⟩

theorem request_builds (hr : r.Carries P) (side : Side) (work : Work) :
    (r.request d side work base).Builds P r.functions base r.callDepth := by
  unfold request
  split
  · exact builds_raise hr ⟨rfl, rfl, rfl⟩ _
  · cases side with
    | main =>
      refine builds_at hr (r.same_governor _) ?_ .park
      exact trivial
    | worker =>
      refine builds_at hr ((r.same_governor _).trans (becomeIdle_quiet _ _).same) ?_ .park
      exact trivial

theorem resume_builds (hr : r.Carries P) (service : ServiceId) (releases interrupted : Bool) :
    (r.resume d service releases interrupted base).Builds P r.functions base r.callDepth := by
  unfold resume
  dsimp only
  split
  · exact builds_raise hr (r.same_governor _) _
  · split
    · exact builds_raise hr (r.same_governor _) _
    · exact builds_go hr (r.same_governor _) trivial
    · exact builds_raise hr (r.same_governor _) _

theorem reply_builds (hr : r.Carries P) (result : ServiceResult) {frame : Frame} (hground : frame.isGround = false) :
    (r.reply d result base frame).Builds P r.functions base r.callDepth := by
  cases frame with
  | collaborator task after =>
    simp only [reply]
    split
    · cases after with
      | nothing => exact builds_ended hr ⟨rfl, rfl, rfl⟩
      | storeTruth | storeText => exact builds_ended hr ⟨rfl, rfl, rfl⟩
      | timeout => exact builds_raise hr ⟨rfl, rfl, rfl⟩ _
    · exact builds_raise hr ⟨rfl, rfl, rfl⟩ _
    · exact builds_raise hr ⟨rfl, rfl, rfl⟩ _
    · exact builds_ended hr ⟨rfl, rfl, rfl⟩
    · exact builds_ended hr ⟨rfl, rfl, rfl⟩
  | requested =>
    simp only [reply]
    split
    · exact builds_value hr ⟨rfl, rfl, rfl⟩ _
    · exact builds_raise hr ⟨rfl, rfl, rfl⟩ _
    · exact builds_value hr ⟨rfl, rfl, rfl⟩ _
    · exact builds_value hr ⟨rfl, rfl, rfl⟩ _
  | clearing => exact builds_go hr ⟨rfl, rfl, rfl⟩ trivial
  | closing => cases hground
  | _ => exact builds_ended hr ⟨rfl, rfl, rfl⟩

theorem close_quiet (r : Run) (d : Desk) (ending : Ending) : r.Quiet (r.close d ending).run := by
  have hgather (r : Run) : r.Quiet { r with gathering := true } := ⟨rfl, rfl, rfl, rfl, rfl, rfl, rfl, rfl, rfl⟩
  let closed := d.modifyBox r.id fun b => { b with closed := true }
  have hcancelled := (r.revoke_quiet closed).trans (cancelled_quiet (r.revoke closed).1 (r.revoke closed).2)
  exact (hcancelled.trans (cancelWorker_quiet _ _)).trans (hgather _)

theorem close_builds (hr : r.Carries P) (ending : Ending) : (r.close d ending).Builds P r.functions [] r.callDepth := by
  refine builds_at hr (r.close_quiet d ending).same ?_ .park
  exact trivial

theorem leaveHandler_builds (hr : r.Carries P) (result : Except Raised Unit) :
    (r.leaveHandler d result).Builds P r.functions [] r.callDepth := by
  obtain ⟨r', d', hjudged, hstep⟩ := r.leaveHandler_judged d result
  have hquiet : r.Quiet r' := by
    cases hjudged with
    | well => exact .refl r
    | aborted e => exact aborted_quiet r d e
  have hfinished := hquiet.trans (handlerFinished_quiet r' d')
  rcases hstep with hstep | hstep
  · rw [hstep]
    refine builds_at hr hfinished.same ?_ .go
    exact trivial
  · rw [hstep]
    refine builds_at hr hfinished.same ?_ .finished
    exact trivial

theorem endBlock_builds (hr : r.Carries P) (signal : Option Signal) {frame : Frame} (hframe : frame.Carries P)
    (hground : frame.isGround = false) (hcall : frame.isRoutine = false) :
    (r.endBlock d signal base frame).Builds P r.functions base r.callDepth := by
  cases frame with
  | following stmts scope =>
    simp only [endBlock]
    split
    · exact builds_go hr ⟨rfl, rfl, rfl⟩ hframe
    · exact builds_go hr ⟨rfl, rfl, rfl⟩ trivial
  | round loop body scope =>
    simp only [endBlock]
    split
    · exact builds_ended hr ⟨rfl, rfl, rfl⟩
    · exact builds_go hr ⟨rfl, rfl, rfl⟩ trivial
    · exact nextTurn_builds hr loop hframe scope
    · exact nextTurn_builds hr loop hframe scope
  | call => cases hcall
  | handler | program | closing => cases hground
  | _ => exact builds_go hr ⟨rfl, rfl, rfl⟩ trivial

theorem unwind_builds (hr : r.Carries P) (e : Raised) {frame : Frame} (hframe : frame.Carries P)
    (hground : frame.isGround = false) (hcall : frame.isRoutine = false) :
    (r.unwind d e base frame).Builds P r.functions base r.callDepth := by
  cases frame with
  | located span =>
    simp only [unwind]
    split <;> exact builds_raise hr ⟨rfl, rfl, rfl⟩ _
  | attempt catchBlock errorVar scope =>
    simp only [unwind]
    split
    · split
      · exact builds_go hr ⟨rfl, rfl, rfl⟩ fun s hs => hframe s hs _
      · exact builds_raise hr ⟨rfl, rfl, rfl⟩ _
    · exact builds_raise hr ⟨rfl, rfl, rfl⟩ _
  | call => cases hcall
  | handler | program | closing => cases hground
  | _ => exact builds_raise hr ⟨rfl, rfl, rfl⟩ e

theorem hoist_carries (hP : Stmt.Closed P) (hr : r.Carries P) {stmts : List Stmt} (hstmts : ∀ s ∈ stmts, P 0 s) :
    (r.hoist stmts).Carries P := by
  unfold hoist
  induction stmts generalizing r with
  | nil => exact hr
  | cons s stmts ih =>
    obtain ⟨hs, hstmts⟩ := List.forall_mem_cons.1 hstmts
    rw [List.foldl_cons]
    refine ih ?_ hstmts
    split
    · exact define_carries hr _ _ _ (hP 0 _ hs)
    · exact hr

theorem begin_builds (hP : Stmt.Closed P) (hr : r.Carries P) (side : Side) :
    (r.begin d side).Builds P (r.begins side) [] r.callDepth := by
  cases side with
  | worker => exact builds_go hr ⟨rfl, rfl, rfl⟩ trivial
  | main =>
    have hprogram (stmts : List Stmt) (hstmts : ∀ s ∈ stmts, P 0 s) :
        (Step.go (r.hoist stmts) (d.enqueue (.thread r.id .worker)) (.statements stmts 0) [.program]).Builds P
          (r.hoist stmts).functions [] r.callDepth := by
      refine ⟨hoist_carries hP hr hstmts, rfl, hstmts, [.program], rfl, (r.hoist_kept stmts).2, .inl rfl,
        fun frame hframe => ?_⟩
      exact List.mem_singleton.1 hframe ▸ trivial
    simp only [begin, begins]
    cases hp : r.program with
    | none => exact hprogram [] fun _ hs => (List.not_mem_nil hs).elim
    | some p => exact hprogram p.statements (hr.program p hp)

theorem receive_builds (hr : r.Carries P)
    (hmail : ∀ mail ∈ (d.box r.id).mail.toList, ∀ s ∈ mail.body.statements, ∀ scope, P scope s) :
    (r.receive d).Builds P r.functions [] r.callDepth := by
  have hhandler : ∀ frame ∈ [Frame.handler], frame.Carries P := fun frame hframe => List.mem_singleton.1 hframe ▸ trivial
  unfold receive
  dsimp only
  split
  · refine builds_at hr ⟨rfl, rfl, rfl⟩ ?_ .finished
    exact trivial
  · split
    · refine builds_at hr ⟨rfl, rfl, rfl⟩ ?_ .park
      exact trivial
    · rename_i mail rest hpop
      have hbody := hmail mail (by rw [Queue.toList_of_pop? _ _ _ hpop]; exact List.mem_cons_self)
      split
      · exact ⟨hr.same ⟨rfl, rfl, rfl⟩, rfl, trivial, [.handler], rfl, rfl, .inl rfl, hhandler⟩
      · exact ⟨hr.same ⟨rfl, rfl, rfl⟩, rfl, fun s hs => hbody s hs _, [.handler], rfl, rfl, .inl rfl, hhandler⟩

theorem builds_whole {s : Step} {table : Dict Routine} (h : s.Builds P table stack r.callDepth) :
    s.Builds P table stack (r.callDepth + calls stack - calls stack) := by
  rw [Nat.add_sub_cancel]
  exact h

theorem builds_below {s : Step} (hcall : frame.isRoutine = false) (h : s.Builds P r.functions base r.callDepth) :
    s.Builds P r.functions base (r.callDepth + calls base - calls (frame :: base)) := by
  rw [calls_cons_of_not hcall, Nat.add_sub_cancel]
  exact h

theorem not_call_of_need {need : Need} (h : frame.need = need) (hne : need ≠ .ending) : frame.isRoutine = false := by
  cases frame with
  | call name => exact absurd h.symm hne
  | _ => rfl

theorem leaveCall_builds (hr : r.Carries P) (name : String) {control : Control} (hcontrol : control.Carries P) :
    (Step.go { r with callDepth := r.callDepth - 1 } d control base).Builds P r.functions base
      (r.callDepth + calls base - calls (.call name :: base)) := by
  refine ⟨⟨hr.program, hr.functions⟩, rfl, hcontrol, [], rfl, ?_, .inl rfl, nofun⟩
  change r.callDepth - 1 = r.callDepth + calls base - (calls base + 1)
  omega

/-- A frame that is not the ground of its stack waits for a block, an error or an answer. -/
theorem ground_or (frame : Frame) : frame.isGround = true ∨ frame.isGround = false := by
  cases frame.isGround with
  | true => exact .inl rfl
  | false => exact .inr rfl

theorem base_nil_of_ground {need : Need} (hs : Stacked need (frame :: base)) (hground : frame.isGround = true) :
    base = [] := by
  obtain ⟨-, -, hbelow⟩ := hs
  cases frame with
  | handler | program | closing => exact hbelow
  | _ => cases hground

theorem ended_builds (hr : r.Carries P) (signal : Option Signal) (hframe : frame.Carries P)
    (hs : Stacked .ending (frame :: base)) : (r.endBlock d signal base frame).Builds P r.functions base
      (r.callDepth + calls base - calls (frame :: base)) := by
  rcases ground_or frame with hground | hground
  · obtain rfl := base_nil_of_ground hs hground
    cases frame with
    | handler => exact builds_below rfl (leaveHandler_builds hr (.ok ()))
    | program => exact builds_below rfl (builds_push hr ⟨rfl, rfl, rfl⟩ trivial trivial rfl)
    | closing v => cases hs.1
    | _ => cases hground
  · cases hcall : frame.isRoutine with
    | false => exact builds_below hcall (endBlock_builds hr signal hframe hground hcall)
    | true =>
      cases frame with
      | call name =>
        refine leaveCall_builds hr name ?_
        exact trivial
      | _ => cases hcall

theorem raised_builds (hr : r.Carries P) (e : Raised) (hframe : frame.Carries P) {need : Need}
    (hs : Stacked need (frame :: base)) : (r.unwind d e base frame).Builds P r.functions base
      (r.callDepth + calls base - calls (frame :: base)) := by
  rcases ground_or frame with hground | hground
  · obtain rfl := base_nil_of_ground hs hground
    cases frame with
    | handler => exact builds_below rfl (leaveHandler_builds hr (.error e))
    | program | closing => exact builds_below rfl (close_builds hr (endingOf e))
    | _ => cases hground
  · cases hcall : frame.isRoutine with
    | false => exact builds_below hcall (unwind_builds hr e hframe hground hcall)
    | true =>
      cases frame with
      | call name =>
        simp only [unwind]
        split
        · refine leaveCall_builds hr name ?_
          exact trivial
        · refine leaveCall_builds hr name ?_
          exact trivial
      | _ => cases hcall

theorem replied_builds (hr : r.Carries P) (result : ServiceResult) (hs : Stacked .reply (frame :: base)) :
    (r.reply d result base frame).Builds P r.functions base (r.callDepth + calls base - calls (frame :: base)) := by
  refine builds_below (not_call_of_need hs.1 nofun) ?_
  rcases ground_or frame with hground | hground
  · obtain rfl := base_nil_of_ground hs hground
    cases frame with
    | handler | program => cases hs.1
    | closing v =>
      simp only [reply]
      split <;> exact close_builds hr _
    | _ => cases hground
  · exact reply_builds hr result hground

/-- What one step of a thread puts on its stack, and what that carries. -/
theorem step_builds (hP : Stmt.Closed P) (hr : r.Carries P) (ht : t.Carries P) (hfits : t.Fits)
    (hmail : t.control = .receive → ∀ mail ∈ (d.box r.id).mail.toList, ∀ s ∈ mail.body.statements, ∀ scope, P scope s) :
    (step side r d t).Builds P (t.table side r) t.base (r.callDepth + calls t.base - calls t.stack) := by
  obtain ⟨control, stack⟩ := t
  obtain ⟨hcontrol, hframes⟩ := ht
  match control, stack with
  | .statements [] scope, stack => exact builds_whole (builds_ended hr ⟨rfl, rfl, rfl⟩)
  | .statements (s :: rest) scope, stack =>
    obtain ⟨hs, hrest⟩ := List.forall_mem_cons.1 hcontrol
    refine builds_whole (builds_descend hr [.located s.span, .following rest scope] trivial (fun f hf => ?_) rfl)
    simp only [List.mem_cons, List.not_mem_nil, or_false] at hf
    rcases hf with rfl | rfl | rfl
    · exact hs
    · exact trivial
    · exact hrest
  | .perform s scope, stack => exact builds_whole (perform_builds hP hr scope hcontrol)
  | .evaluate e scope, stack => exact builds_whole (evaluate_builds hr scope e)
  | .value v, frame :: stack =>
    exact builds_below (not_call_of_need hfits.1 nofun) (giveValue_builds hr v (hframes frame List.mem_cons_self) hfits.1)
  | .ended signal, frame :: stack => exact ended_builds hr signal (hframes frame List.mem_cons_self) hfits.1
  | .raised e, frame :: stack => exact raised_builds hr e (hframes frame List.mem_cons_self) hfits.choose_spec
  | .checkpoint, stack => exact builds_whole (checkpoint_builds hr)
  | .recheck, stack => exact builds_whole (recheck_builds hr)
  | .clear, stack => exact builds_whole (waitClear_builds hr side)
  | .passed, frame :: stack =>
    exact builds_below (not_call_of_need hfits.1 nofun) (pass_builds hr (hframes frame List.mem_cons_self))
  | .request work, stack => exact builds_whole (request_builds hr side work)
  | .resume service releases, stack => exact builds_whole (resume_builds hr service releases false)
  | .replied result, frame :: stack => exact replied_builds hr result hfits
  | .start, stack =>
    obtain rfl : stack = [] := hfits
    exact builds_whole (begin_builds hP hr side)
  | .receive, stack =>
    obtain rfl : stack = [] := hfits
    exact builds_whole (receive_builds hr (hmail rfl))
  | .settle ending, stack =>
    obtain rfl : stack = [] := hfits
    refine builds_whole (builds_at hr ?_ ?_ .finished)
    · exact ⟨rfl, rfl, rfl⟩
    · exact trivial
  | .finished, stack =>
    obtain rfl : stack = [] := hfits
    refine builds_whole (builds_at hr ⟨rfl, rfl, rfl⟩ ?_ .finished)
    exact trivial
  | .raised e, [] => exact hfits.choose_spec.elim

/-- A worker that is interrupted hears of it with its whole stack. -/
theorem interruptWorker_builds (hr : r.Carries P) (hrested : t.Rested) :
    (r.interruptWorker d t).Builds P r.functions t.base (r.callDepth + calls t.base - calls t.stack) := by
  have htold : ({ r with workerCancelled := false } : Run).Carries P := ⟨hr.program, hr.functions⟩
  cases hrested with
  | resume service stack => exact builds_whole (resume_builds htold service true true)
  | recheck stack => exact builds_whole (builds_raise htold ⟨rfl, rfl, rfl⟩ .interrupted)
  | @bare control hresume hrecheck =>
    have hbase : Thread.base ⟨control, []⟩ = [] := ite_self []
    rw [hbase]
    simp only [interruptWorker]
    refine builds_whole (builds_at htold ⟨rfl, rfl, rfl⟩ ?_ .finished)
    exact trivial

end Run

def Control.isOutcome : Control → Bool
  | value _ | ended _ | raised _ => true
  | _ => false

def Thread.IsOver (t : Thread) (base : List Frame) : Prop := t.stack = base ∧ t.control.isOutcome = true

/-- The frame on top of a stack is given what it waits for, or an error. -/
theorem Thread.Fits.meets {t : Thread} {frame : Frame} {stack : List Frame} (hfits : t.Fits) (hstack : t.stack = frame :: stack)
    (hgiven : t.control.isGiven = true) : (∃ e, t.control = .raised e) ∨ t.control.meets frame.need = true := by
  obtain ⟨control, stack⟩ := t
  subst hstack
  have hmet {control : Control} {given : Need} (hneed : frame.need = given) (hmeets : control.meets given = true) :
      control.meets frame.need = true := hneed ▸ hmeets
  cases control with
  | raised e => exact .inl ⟨e, rfl⟩
  | value v => exact .inr (hmet hfits.1 rfl)
  | ended signal => exact .inr (hmet hfits.1.1 rfl)
  | passed => exact .inr (hmet hfits.1 rfl)
  | replied result => exact .inr (hmet hfits.1 rfl)
  | _ => cases hgiven

theorem Thread.Fits.given {t : Thread} {need : Need} (hfits : t.Fits) (hs : Stacked need t.stack)
    (hgiven : t.control.isGiven = true) : (∃ e, t.control = .raised e) ∨ t.control.meets need = true := by
  cases hstack : t.stack with
  | nil => exact (hstack ▸ hs).elim
  | cons frame stack =>
    obtain ⟨rfl, -⟩ := hstack ▸ hs
    exact hfits.meets hstack hgiven

/-- What lies below the top of a stack stays where it is until the frame on its own top is given something. -/
theorem Thread.suffix_base {t : Thread} {base : List Frame} (hsuffix : base <:+ t.stack)
    (h : t.stack = base → t.control.isGiven = false) : base <:+ t.base := by
  unfold Thread.base
  split
  · rename_i hgiven
    obtain ⟨above, hstack⟩ := hsuffix
    cases above with
    | nil => cases (h hstack.symm).symm.trans hgiven
    | cons frame above =>
      rw [← hstack]
      exact ⟨above, rfl⟩
  · exact hsuffix

theorem Thread.calls_base_le (t : Thread) : calls t.base ≤ calls t.stack := by
  unfold Thread.base
  split
  · cases t.stack with
    | nil => exact Nat.le_refl _
    | cons frame stack => exact calls_le_cons frame stack
  · exact Nat.le_refl _

namespace Moment

variable {m n : Moment} {id : RunId} {side : Side} {base : List Frame} {need : Need}

/-- A thread in its slice makes its next step by the next move, whatever that is. -/
theorem Move.inner (hn : Move m n) (hm : m.Sound) (hinner : (m.thread id side).control.atRest = false) :
    n.At id side (Run.step side (m.run id) m.desk (m.thread id side)) := by
  obtain ⟨w, s, rfl, hpace⟩ := hm.within_of_inner hinner
  have hat := at_within w id side s
  cases hn with
  | next hn =>
    cases hn with
    | step _ =>
      rw [hat.run, hat.thread]
      exact at_within w id side _
    | rest hrest => exact absurd hpace hrest

/-- A step of the thread has put frames on what it left of its stack; without the calls among them the call depth is
`depth`. -/
structure Puts (id : RunId) (side : Side) (m n : Moment) (above : List Frame) (depth : Nat) : Prop where
  stack : (n.thread id side).stack = above ++ (m.thread id side).base
  before : depth = (m.run id).callDepth + calls (m.thread id side).base - calls (m.thread id side).stack
  after : (n.run id).callDepth = depth + calls above
  room : calls above = 0 ∨ calls above = 1 ∧ (depth : Int) < (n.run id).limits.maxCallDepth

theorem Acts.puts (hacts : Acts id side m n) (hm : Possible m) : ∃ above depth, Puts id side m n above depth := by
  have hr := (m.run id).carries_any
  have ht := (m.thread id side).carries_any
  have hfits := hm.sound.thread id side
  have hputs {s : Step} {depth : Nat} (hat : n.At id side s)
      (hdepth : depth = (m.run id).callDepth + calls (m.thread id side).base - calls (m.thread id side).stack)
      {table : Dict Routine} (h : s.Builds (fun _ _ => True) table (m.thread id side).base depth) :
      ∃ above depth, Puts id side m n above depth := by
    obtain ⟨above, hstack, hafter, hroom, -⟩ := h.stack
    rw [← hat.thread] at hstack
    rw [← hat.run] at hafter hroom
    exact ⟨above, depth, hstack, hdepth, hafter, hroom⟩
  obtain ⟨-, ready, -, hat | ⟨rfl, hrest, hat⟩⟩ := hacts.stride hm.sound
  · exact hputs hat rfl (Run.step_builds (fun _ _ _ _ _ _ => trivial) hr ht hfits fun _ _ _ _ _ _ => trivial)
  · have hsided := hm.attended.sided (hm.orderly.acting hacts) .worker
    exact hputs hat rfl (Run.interruptWorker_builds hr (hsided.rested hfits hrest))

/-- What the thread has in hand says what it writes to the functions of its run. -/
theorem Acts.functions (hacts : Acts id side m n) (hm : Possible m) :
    (n.run id).functions = (m.thread id side).table side (m.run id) := by
  have hr := (m.run id).carries_any
  have hfits := hm.sound.thread id side
  obtain ⟨-, ready, -, hat | ⟨rfl, hrest, hat⟩⟩ := hacts.stride hm.sound
  · rw [hat.run]
    exact (Run.step_builds (fun _ _ _ _ _ _ => trivial) hr (Thread.carries_any _) hfits fun _ _ _ _ _ _ => trivial).functions
  · have hsided := hm.attended.sided (hm.orderly.acting hacts) .worker
    rw [hat.run, (Run.interruptWorker_builds hr (hsided.rested hfits hrest)).functions]
    -- a worker at rest has no statement in hand
    unfold Thread.table
    cases hcontrol : (m.thread id .worker).control <;> first | rfl | (rw [hcontrol] at hrest; cases hrest)

/-- A thread of the run makes a step, or the run keeps its functions and its call depth and its threads stay. -/
theorem Move.acts_or_same (hn : Move m n) (hm : m.Sound) (hid : id < m.size) :
    (∃ side, Acts id side m n) ∨ (m.run id).Same (n.run id) ∧ ∀ side, n.thread id side = m.thread id side := by
  cases hn.share hm hid with
  | step side ready hacts => exact .inl ⟨side, hacts⟩
  | interrupted ready hacts => exact .inl ⟨.worker, hacts⟩
  | rested main worker ready hrun _ hthreads => exact .inr ⟨hrun ▸ ⟨rfl, rfl, rfl⟩, hthreads⟩
  | served service ready _ hrun _ hthreads =>
    have hsound : Desk.Sound { m.desk with ready } := hm.desk.still ⟨rfl, rfl⟩
    exact .inr ⟨hrun ▸ (Run.stepService_sound (m.run id) hsound service).1.same, hthreads⟩
  | cancelled _ hrun _ hthreads =>
    exact .inr ⟨hrun ▸ ((Run.cancelled_quiet _ _).trans (Run.revoke_quiet _ _)).same, hthreads⟩
  | aside hrun hthreads => exact .inr ⟨hrun ▸ ⟨rfl, rfl, rfl⟩, hthreads⟩

theorem Move.acts_or_still (hn : Move m n) (hm : m.Sound) (hid : id < m.size) (side : Side) :
    Acts id side m n ∨ n.thread id side = m.thread id side := by
  rcases hn.acts_or_same hm hid with ⟨acting, hacts⟩ | ⟨-, hthreads⟩
  · by_cases hside : side = acting
    · exact .inl (hside ▸ hacts)
    · obtain rfl : side = acting.other := by cases side <;> cases acting <;> first | rfl | exact absurd rfl hside
      exact .inr (hacts.stride hm).1
  · exact .inr (hthreads side)

/-- What lies below on the stack of a thread stays there until the frame on its own top is given something. -/
theorem Move.suffix (hn : Move m n) (hm : Possible m) (hid : id < m.size) (hsuffix : base <:+ (m.thread id side).stack)
    (h : (m.thread id side).stack = base → (m.thread id side).control.isGiven = false) :
    base <:+ (n.thread id side).stack := by
  rcases hn.acts_or_still hm.sound hid side with hacts | hstill
  · obtain ⟨above, depth, hputs⟩ := hacts.puts hm
    rw [hputs.stack]
    exact (Thread.suffix_base hsuffix h).trans (List.suffix_append _ _)
  · rw [hstill]
    exact hsuffix

end Moment

end DeskScript
