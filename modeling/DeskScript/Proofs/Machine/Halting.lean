import DeskScript.Proofs.Machine.Sound

set_option autoImplicit false

/-!
# Bodies come to their end

The body of a program or of a handler takes finitely many steps, whatever the run and the desk do between them: calls are
bounded by the call depth, below that the syntax tree is finite, and every loop has a number of turns left. The one place
where a thread may go around for ever is a checkpoint of the main thread, which waits while a handler is busy.
Main statement: `halts_of_fits`.
-/

namespace DeskScript

namespace Thread

def BodyOver (t : Thread) : Prop :=
  (t.stack = [.program] ∨ t.stack = [.handler]) ∧ ((∃ signal, t.control = .ended signal) ∨ ∃ e, t.control = .raised e)

inductive HeldAt (stack : List Frame) : Thread → Prop
  | clear : HeldAt stack ⟨.clear, stack⟩
  | request : HeldAt stack ⟨.request .idle, .clearing :: stack⟩
  | resume (id : ServiceId) (releases : Bool) : HeldAt stack ⟨.resume id releases, .clearing :: stack⟩
  | replied (result : ServiceResult) : HeldAt stack ⟨.replied result, .clearing :: stack⟩

end Thread

structure Run.Bears (limits : Limits) (stack : List Frame) (r : Run) : Prop where
  limits : r.limits = limits
  depth : calls stack ≤ r.callDepth

theorem Run.Bears.pop {limits : Limits} {frame : Frame} {stack : List Frame} {r : Run}
    (h : r.Bears limits (frame :: stack)) : r.Bears limits stack :=
  ⟨h.limits, Nat.le_trans (calls_le_cons frame stack) h.depth⟩

/-- Every sequence of steps of the thread comes to the end of its body, or stays at a checkpoint of the main thread.
Between two steps the run and the desk may change in any way, and at rest the thread may be interrupted. -/
inductive Halts (limits : Limits) (side : Side) : Thread → Prop
  | finished {t : Thread} (h : t.BodyOver) : Halts limits side t
  | move {t : Thread}
      (hstep : ∀ (r : Run) (d : Desk), r.Bears limits t.stack → Halts limits side (Run.step side r d t).thread)
      (hrest : t.control.atRest = true → ∀ e, Halts limits side ⟨.raised e, t.stack⟩) : Halts limits side t
  | held {stack : List Frame} {t : Thread} (h : t.HeldAt stack) (hside : side = .main)
      (hpassed : Halts limits side ⟨.passed, stack⟩)
      (hraised : ∀ e, Halts limits side ⟨.raised e, .clearing :: stack⟩) : Halts limits side t

def Control.meets : Need → Control → Bool
  | .value, value _ | .ending, ended _ | .leave, passed | .reply, replied _ => true
  | _, _ => false

/-- What lies below comes to its end once it is given what it needs. At least `least` calls are below. -/
structure Awaits (limits : Limits) (side : Side) (least : Nat) (need : Need) (stack : List Frame) : Prop where
  depth : least ≤ calls stack
  raised : ∀ e, Halts limits side ⟨.raised e, stack⟩
  given : ∀ control : Control, control.meets need = true → Halts limits side ⟨control, stack⟩

def Runs (limits : Limits) (side : Side) (least : Nat) (stmts : List Stmt) : Prop :=
  ∀ scope stack, Awaits limits side least .ending stack → Halts limits side ⟨.statements stmts scope, stack⟩

def Evaluates (limits : Limits) (side : Side) (least : Nat) (e : Expr) : Prop :=
  ∀ scope stack, Awaits limits side least .value stack → Halts limits side ⟨.evaluate e scope, stack⟩

section

variable {limits : Limits} {side : Side} {least : Nat} {need : Need} {stack : List Frame} {frame : Frame} {r : Run}
  {d : Desk}

/-- A control at which no thread rests can only make a step. -/
theorem Halts.go {t : Thread} (hrest : t.control.atRest = false)
    (hstep : ∀ (r : Run) (d : Desk), r.Bears limits t.stack → Halts limits side (Run.step side r d t).thread) :
    Halts limits side t := by
  refine .move hstep fun hatRest => ?_
  rw [hrest] at hatRest
  exact absurd hatRest Bool.false_ne_true

namespace Awaits

theorem value (h : Awaits limits side least .value stack) (v : Value) : Halts limits side ⟨.value v, stack⟩ :=
  h.given (.value v) rfl

theorem ended (h : Awaits limits side least .ending stack) (signal : Option Signal) :
    Halts limits side ⟨.ended signal, stack⟩ :=
  h.given (.ended signal) rfl

theorem passed (h : Awaits limits side least .leave stack) : Halts limits side ⟨.passed, stack⟩ := h.given .passed rfl

theorem replied (h : Awaits limits side least .reply stack) (result : ServiceResult) :
    Halts limits side ⟨.replied result, stack⟩ :=
  h.given (.replied result) rfl

theorem valueOr (h : Awaits limits side least .value stack) (r : Run) (d : Desk) (result : Except Failure Value) :
    Halts limits side (Step.valueOr r d result stack).thread := by
  unfold Step.valueOr
  split
  · exact h.value _
  · exact h.raised _

/-- A frame that waits for a value lets every error pass. -/
theorem onValue (h : Awaits limits side least need stack) (hneed : frame.need = .value)
    (hgive : ∀ (r : Run) (d : Desk) (v : Value), r.Bears limits stack →
      Halts limits side (r.giveValue d v stack frame).thread) : Awaits limits side least .value (frame :: stack) := by
  refine ⟨Nat.le_trans h.depth (calls_le_cons frame stack), fun e => .go rfl fun r d _ => ?_, fun control hmeets => ?_⟩
  · have hplain : r.unwind d e stack frame = .raise r d e stack := by cases frame <;> first | rfl | cases hneed
    rw [show Run.step side r d ⟨.raised e, frame :: stack⟩ = r.unwind d e stack frame from rfl, hplain]
    exact h.raised e
  · cases control with
    | value v => exact .go rfl fun r d hr => hgive r d v hr.pop
    | _ => cases hmeets

end Awaits

theorem descend_halts {control : Control} (h : Awaits limits side least need stack)
    (hgo : Halts limits side ⟨control, frame :: stack⟩) : Halts limits side (r.descend d control frame stack).thread := by
  unfold Run.descend
  split
  · exact hgo
  · exact h.raised _

theorem resume_halts (h : Awaits limits side least .reply stack) (id : ServiceId) (releases : Bool) :
    Halts limits side ⟨.resume id releases, stack⟩ := by
  refine .move (fun r d _ => ?_) fun _ => h.raised
  simp only [Run.step, Run.resume]
  split
  · exact h.raised _
  · split
    · exact h.raised _
    · exact h.replied _
    · exact h.raised _

theorem request_halts (h : Awaits limits side least .reply stack) (work : Work) :
    Halts limits side ⟨.request work, stack⟩ := by
  refine .go rfl fun r d _ => ?_
  simp only [Run.step, Run.request]
  split
  · exact h.raised _
  · exact resume_halts h _ _

theorem clearing_raised (h : Awaits limits side least .leave stack) (e : Raised) :
    Halts limits side ⟨.raised e, .clearing :: stack⟩ :=
  .go rfl fun _ _ _ => h.raised e

theorem clear_halts (h : Awaits limits side least .leave stack) : Halts limits side ⟨.clear, stack⟩ := by
  cases side with
  | worker => exact .go rfl fun _ _ _ => h.passed
  | main => exact .held .clear rfl h.passed (clearing_raised h)

theorem clearing_awaits (h : Awaits limits side least .leave stack) :
    Awaits limits side least .reply (.clearing :: stack) := by
  refine ⟨h.depth, clearing_raised h, fun control hmeets => ?_⟩
  cases control with
  | replied result => exact .go rfl fun _ _ _ => clear_halts h
  | _ => cases hmeets

theorem recheck_halts (h : Awaits limits side least .leave stack) : Halts limits side ⟨.recheck, stack⟩ := by
  refine .move (fun r d _ => ?_) fun _ => h.raised
  simp only [Run.step, Run.recheck]
  split
  · exact h.raised _
  · exact clear_halts h

theorem checkpoint_halts (h : Awaits limits side least .leave stack) : Halts limits side ⟨.checkpoint, stack⟩ := by
  refine .go rfl fun r d _ => ?_
  simp only [Run.step, Run.checkpoint]
  split
  · exact h.raised _
  · split
    · exact h.raised _
    · exact recheck_halts h
    · exact clear_halts h

theorem requested_awaits (h : Awaits limits side least .value stack) :
    Awaits limits side least .reply (.requested :: stack) := by
  refine ⟨h.depth, fun e => .go rfl fun _ _ _ => h.raised e, fun control hmeets => ?_⟩
  cases control with
  | replied result =>
    refine .go rfl fun r d _ => ?_
    simp only [Run.step, Run.reply]
    split
    · exact h.value _
    · exact h.raised _
    · exact h.value _
    · exact h.value _
  | _ => cases hmeets

theorem follow_halts (h : Awaits limits side least .ending stack) (after : After) (p : Plain) :
    Halts limits side (r.follow d after p stack).thread := by
  cases after with
  | nothing | storeTruth into scope | storeText into scope => exact h.ended none
  | timeout => exact h.raised _

theorem collaborator_awaits (h : Awaits limits side least .ending stack) (task : String) (after : After) :
    Awaits limits side least .reply (.collaborator task after :: stack) := by
  refine ⟨h.depth, fun e => .go rfl fun _ _ _ => h.raised e, fun control hmeets => ?_⟩
  cases control with
  | replied result =>
    refine .go rfl fun r d _ => ?_
    simp only [Run.step, Run.reply]
    split
    · exact follow_halts h after _
    · exact h.raised _
    · exact h.raised _
    · exact h.ended none
    · exact h.ended none
  | _ => cases hmeets

theorem call_awaits (h : Awaits limits side least .value stack) (name : String) :
    Awaits limits side (least + 1) .ending (.call name :: stack) := by
  refine ⟨Nat.succ_le_succ h.depth, fun e => .go rfl fun r d _ => ?_, fun control hmeets => ?_⟩
  · simp only [Run.step, Run.unwind]
    split
    · exact h.raised _
    · exact h.raised _
  · cases control with
    | ended signal => exact .go rfl fun _ _ _ => h.value _
    | _ => cases hmeets

/-- What is called runs with one more call below, if the limit of calls allows one more. -/
def CallsRun (limits : Limits) (side : Side) (least : Nat) : Prop :=
  (least : Int) < limits.maxCallDepth → ∀ stmts, Runs limits side (least + 1) stmts

theorem invoke_halts (hcall : CallsRun limits side least) (h : Awaits limits side least .value stack)
    (hr : r.Bears limits stack) (name : String) (args : List Value) :
    Halts limits side (r.invoke d name args stack).thread := by
  unfold Run.invoke
  split
  · rename_i f _
    rcases r.callRoutine_cases d f args stack with ⟨e, hraise⟩ | ⟨hroom, bindings, hgo⟩
    · rw [hraise]
      exact h.raised e
    · have hleast : (least : Int) < limits.maxCallDepth := by
        have hbelow := h.depth
        have hcounted := hr.depth
        rw [hr.limits] at hroom
        omega
      rw [hgo]
      exact hcall hleast _ _ _ (call_awaits h f.name)
  · dsimp only
    split
    · exact h.raised _
    · exact h.value _
    · exact request_halts (requested_awaits h) _

theorem arguments_awaits (hcall : CallsRun limits side least) (h : Awaits limits side least .value stack) (name : String)
    (given : List Value) {left : List Expr} (hleft : ∀ e ∈ left, Evaluates limits side least e) (scope : ScopeId) :
    Awaits limits side least .value (.arguments name given left scope :: stack) := by
  induction left generalizing given with
  | nil => exact h.onValue rfl fun r d v hr => invoke_halts hcall h hr name _
  | cons e rest ih =>
    refine h.onValue rfl fun r d v _ => hleft e List.mem_cons_self scope _ ?_
    exact ih (v :: given) fun other hother => hleft other (List.mem_cons_of_mem e hother)

theorem elements_awaits (h : Awaits limits side least .value stack) (given : List Value) {left : List Expr}
    (hleft : ∀ e ∈ left, Evaluates limits side least e) (scope : ScopeId) :
    Awaits limits side least .value (.elements given left scope :: stack) := by
  induction left generalizing given with
  | nil => exact h.onValue rfl fun r d v _ => h.value _
  | cons e rest ih =>
    refine h.onValue rfl fun r d v _ => hleft e List.mem_cons_self scope _ ?_
    exact ih (v :: given) fun other hother => hleft other (List.mem_cons_of_mem e hother)

theorem entries_awaits (h : Awaits limits side least .value stack) (given : Dict Value) (key : String)
    {left : List (String × Expr)} (hleft : ∀ e ∈ left, Evaluates limits side least e.2) (scope : ScopeId) :
    Awaits limits side least .value (.entries given key left scope :: stack) := by
  induction left generalizing given key with
  | nil => exact h.onValue rfl fun r d v _ => h.value _
  | cons e rest ih =>
    refine h.onValue rfl fun r d v _ => hleft e List.mem_cons_self scope _ ?_
    exact ih (given.insert key v) e.1 fun other hother => hleft other (List.mem_cons_of_mem e hother)

theorem right_awaits (h : Awaits limits side least .value stack) (op : BinaryOp) (left : Value) :
    Awaits limits side least .value (.right op left :: stack) := by
  refine h.onValue rfl fun r d v _ => ?_
  simp only [Run.giveValue]
  split
  · exact h.value _
  · exact h.raised _

theorem left_awaits (h : Awaits limits side least .value stack) (op : BinaryOp) {right : Expr}
    (hright : Evaluates limits side least right) (scope : ScopeId) :
    Awaits limits side least .value (.left op right scope :: stack) :=
  h.onValue rfl fun _ _ v _ => hright scope _ (right_awaits h op v)

theorem truth_awaits (h : Awaits limits side least .value stack) : Awaits limits side least .value (.truth :: stack) :=
  h.onValue rfl fun _ _ _ _ => h.value _

theorem logic_awaits (h : Awaits limits side least .value stack) (op : LogicOp) {right : Expr}
    (hright : Evaluates limits side least right) (scope : ScopeId) :
    Awaits limits side least .value (.logic op right scope :: stack) := by
  refine h.onValue rfl fun r d v _ => ?_
  simp only [Run.giveValue]
  split
  · exact h.value _
  · exact h.value _
  · exact hright scope _ (truth_awaits h)

theorem unary_awaits (h : Awaits limits side least .value stack) (op : UnaryOp) :
    Awaits limits side least .value (.unary op :: stack) :=
  h.onValue rfl fun r d _ _ => h.valueOr r d _

theorem key_awaits (h : Awaits limits side least .value stack) (base : Value) :
    Awaits limits side least .value (.key base :: stack) :=
  h.onValue rfl fun r d _ _ => h.valueOr r d _

theorem base_awaits (h : Awaits limits side least .value stack) {key : Expr} (hkey : Evaluates limits side least key)
    (scope : ScopeId) : Awaits limits side least .value (.base key scope :: stack) :=
  h.onValue rfl fun _ _ v _ => hkey scope _ (key_awaits h v)

mutual

theorem evaluates (hcall : CallsRun limits side least) (e : Expr) : Evaluates limits side least e := by
  intro scope stack h
  refine .go rfl fun r d hr => ?_
  match e with
  | .literal _ l => exact h.value _
  | .var _ name =>
    simp only [Run.step, Run.evaluate]
    split
    · exact h.value _
    · exact h.raised _
  | .binary _ op left right =>
    exact descend_halts h (evaluates hcall left scope _ (left_awaits h op (evaluates hcall right) scope))
  | .logic _ op left right =>
    exact descend_halts h (evaluates hcall left scope _ (logic_awaits h op (evaluates hcall right) scope))
  | .unary _ op operand => exact descend_halts h (evaluates hcall operand scope _ (unary_awaits h op))
  | .call _ name [] => exact invoke_halts hcall h hr name []
  | .call _ name (first :: rest) =>
    refine descend_halts h (evaluates hcall first scope _ ?_)
    exact arguments_awaits hcall h name [] (evaluates_all hcall rest) scope
  | .array _ [] => exact h.value _
  | .array _ (first :: rest) =>
    exact descend_halts h (evaluates hcall first scope _ (elements_awaits h [] (evaluates_all hcall rest) scope))
  | .object _ [] => exact h.value _
  | .object _ ((key, first) :: rest) =>
    exact descend_halts h (evaluates hcall first scope _ (entries_awaits h [] key (evaluates_entries hcall rest) scope))
  | .template _ segments => exact h.valueOr r d _
  | .property _ base key =>
    exact descend_halts h (evaluates hcall base scope _ (base_awaits h (evaluates hcall key) scope))

theorem evaluates_all (hcall : CallsRun limits side least) (es : List Expr) :
    ∀ e ∈ es, Evaluates limits side least e := by
  match es with
  | [] => exact List.forall_mem_nil _
  | first :: rest => exact List.forall_mem_cons.2 ⟨evaluates hcall first, evaluates_all hcall rest⟩

theorem evaluates_entries (hcall : CallsRun limits side least) (entries : List (String × Expr)) :
    ∀ e ∈ entries, Evaluates limits side least e.2 := by
  match entries with
  | [] => exact List.forall_mem_nil _
  | (_, first) :: rest => exact List.forall_mem_cons.2 ⟨evaluates hcall first, evaluates_entries hcall rest⟩

end

theorem statement_awaits (h : Awaits limits side least .ending stack) (hneed : frame.need = .value)
    (hgive : ∀ (r : Run) (d : Desk) (v : Value), ∃ signal, (r.giveValue d v stack frame).thread = ⟨.ended signal, stack⟩) :
    Awaits limits side least .value (frame :: stack) := by
  refine h.onValue hneed fun r d v _ => ?_
  obtain ⟨signal, hended⟩ := hgive r d v
  rw [hended]
  exact h.ended signal

theorem assignValue_awaits (h : Awaits limits side least .ending stack) (base key : Value) :
    Awaits limits side least .value (.assignValue base key :: stack) := by
  refine h.onValue rfl fun r d v _ => ?_
  simp only [Run.giveValue]
  split
  · exact h.ended none
  · exact h.raised _

theorem assignKey_awaits (h : Awaits limits side least .ending stack) (base : Value) {value : Expr}
    (hvalue : Evaluates limits side least value) (scope : ScopeId) :
    Awaits limits side least .value (.assignKey base value scope :: stack) :=
  h.onValue rfl fun _ _ v _ => hvalue scope _ (assignValue_awaits h base v)

theorem assignBase_awaits (h : Awaits limits side least .ending stack) {key value : Expr}
    (hkey : Evaluates limits side least key) (hvalue : Evaluates limits side least value) (scope : ScopeId) :
    Awaits limits side least .value (.assignBase key value scope :: stack) :=
  h.onValue rfl fun _ _ v _ => hkey scope _ (assignKey_awaits h v hvalue scope)

theorem branch_awaits (h : Awaits limits side least .ending stack) {yes : Block Stmt} {no : Option (Block Stmt)}
    (hyes : Runs limits side least yes.statements) (hno : ∀ block, no = some block → Runs limits side least block.statements)
    (scope : ScopeId) : Awaits limits side least .value (.branch yes no scope :: stack) := by
  refine h.onValue rfl fun r d v _ => ?_
  simp only [Run.giveValue]
  split
  · exact hyes _ _ h
  · split
    · exact h.ended none
    · exact hno _ rfl _ _ h

theorem runCommand_halts (h : Awaits limits side least .ending stack) (scope : ScopeId) (c : Command Value) :
    Halts limits side (r.runCommand d scope c stack).thread := by
  simp only [Run.runCommand]
  split
  · exact h.ended none
  · exact h.raised _
  · exact request_halts (collaborator_awaits h _ _) _

theorem operands_awaits (h : Awaits limits side least .ending stack) (c : Command Expr) (given : List Value)
    {left : List Expr} (hleft : ∀ e ∈ left, Evaluates limits side least e) (scope : ScopeId) :
    Awaits limits side least .value (.operands c given left scope :: stack) := by
  induction left generalizing given with
  | nil =>
    refine h.onValue rfl fun r d v _ => ?_
    simp only [Run.giveValue, Run.evaluateOperands]
    split
    · exact runCommand_halts h scope _
    · exact h.ended none
  | cons e rest ih =>
    refine h.onValue rfl fun r d v _ => hleft e List.mem_cons_self scope _ ?_
    exact ih (v :: given) fun other hother => hleft other (List.mem_cons_of_mem e hother)

theorem evaluateOperands_halts (h : Awaits limits side least .ending stack) (c : Command Expr) (given : List Value)
    {left : List Expr} (hleft : ∀ e ∈ left, Evaluates limits side least e) (scope : ScopeId) :
    Halts limits side (r.evaluateOperands d c given left scope stack).thread := by
  unfold Run.evaluateOperands
  split
  · rename_i e rest
    refine hleft e List.mem_cons_self scope _ (operands_awaits h c given (fun other hother => ?_) scope)
    exact hleft other (List.mem_cons_of_mem e hother)
  · split
    · exact runCommand_halts h scope _
    · exact h.ended none

theorem emitPayload_awaits (h : Awaits limits side least .ending stack) (name : String) :
    Awaits limits side least .value (.emitPayload name :: stack) :=
  statement_awaits h rfl fun _ _ _ => ⟨none, rfl⟩

theorem emitName_awaits (h : Awaits limits side least .ending stack) {payload : Option Expr}
    (hpayload : ∀ e, payload = some e → Evaluates limits side least e) (scope : ScopeId) :
    Awaits limits side least .value (.emitName payload scope :: stack) := by
  cases payload with
  | none => exact statement_awaits h rfl fun _ _ _ => ⟨none, rfl⟩
  | some e => exact h.onValue rfl fun _ _ _ _ => hpayload e rfl scope _ (emitPayload_awaits h _)

theorem following_awaits (h : Awaits limits side least .ending stack) {stmts : List Stmt}
    (hstmts : Runs limits side least stmts) (scope : ScopeId) :
    Awaits limits side least .ending (.following stmts scope :: stack) := by
  refine ⟨h.depth, fun e => .go rfl fun _ _ _ => h.raised e, fun control hmeets => ?_⟩
  cases control with
  | ended signal =>
    cases signal with
    | none => exact .go rfl fun _ _ _ => hstmts scope stack h
    | some s => exact .go rfl fun _ _ _ => h.ended (some s)
  | _ => cases hmeets

theorem located_awaits (h : Awaits limits side least .ending stack) (span : Span) :
    Awaits limits side least .ending (.located span :: stack) := by
  refine ⟨h.depth, fun e => .go rfl fun r d _ => ?_, fun control hmeets => ?_⟩
  · cases e <;> exact h.raised _
  · cases control with
    | ended signal => exact .go rfl fun _ _ _ => h.ended signal
    | _ => cases hmeets

theorem attempt_awaits (h : Awaits limits side least .ending stack) {catchBlock : Block Stmt}
    (hcatch : Runs limits side least catchBlock.statements) (errorVar : Option String) (scope : ScopeId) :
    Awaits limits side least .ending (.attempt catchBlock errorVar scope :: stack) := by
  refine ⟨h.depth, fun e => .go rfl fun r d _ => ?_, fun control hmeets => ?_⟩
  · simp only [Run.step, Run.unwind]
    split
    · split
      · exact hcatch _ _ h
      · exact h.raised _
    · exact h.raised _
  · cases control with
    | ended signal => exact .go rfl fun _ _ _ => h.ended signal
    | _ => cases hmeets

def Performs (limits : Limits) (side : Side) (least : Nat) (s : Stmt) : Prop :=
  ∀ scope stack, Awaits limits side least .ending stack → Halts limits side ⟨.perform s scope, stack⟩

theorem entering_awaits (h : Awaits limits side least .ending stack) {s : Stmt} (hs : Performs limits side least s)
    (scope : ScopeId) : Awaits limits side least .leave (.entering s scope :: stack) := by
  refine ⟨h.depth, fun e => .go rfl fun _ _ _ => h.raised e, fun control hmeets => ?_⟩
  cases control with
  | passed => exact .go rfl fun _ _ _ => hs scope stack h
  | _ => cases hmeets

/-- The loop after a turn. A conditional loop at its limit has no turn. -/
def Loop.after? (limits : Limits) : Loop → Option Loop
  | counted i n => some (counted (i + 1) n)
  | conditional i condition =>
    if (i : Int) < limits.maxLoopIterations then some (conditional (i + 1) condition) else none
  | each i (_ :: rest) item index => some (each (i + 1) rest item index)
  | each _ [] _ _ => none

def Loop.left (limits : Limits) : Loop → Nat
  | counted i n => n - i
  | conditional i _ => (limits.maxLoopIterations - i).toNat
  | each _ items _ _ => items.length

def Turns (limits : Limits) (side : Side) (body : Block Stmt) (scope : ScopeId) (stack : List Frame) (loop : Loop) : Prop :=
  ∀ (r : Run) (d : Desk), Halts limits side (r.nextTurn d loop body scope stack).thread

theorem round_awaits (h : Awaits limits side least .ending stack) {body : Block Stmt} {scope : ScopeId} {loop : Loop}
    (hloop : Turns limits side body scope stack loop) :
    Awaits limits side least .ending (.round loop body scope :: stack) := by
  refine ⟨h.depth, fun e => .go rfl fun _ _ _ => h.raised e, fun control hmeets => ?_⟩
  cases control with
  | ended signal =>
    refine .go rfl fun r d _ => ?_
    simp only [Run.step, Run.endBlock]
    split
    · exact h.ended none
    · exact h.ended _
    · exact hloop r d
    · exact hloop r d
  | _ => cases hmeets

theorem test_awaits (h : Awaits limits side least .ending stack) {body : Block Stmt} {scope : ScopeId}
    (hbody : Runs limits side least body.statements) {i : Nat} {condition : Expr}
    (hafter : ∀ next, (Loop.conditional i condition).after? limits = some next → Turns limits side body scope stack next) :
    Awaits limits side least .value (.test i condition body scope :: stack) := by
  refine h.onValue rfl fun r d v hr => ?_
  simp only [Run.giveValue]
  split
  · exact h.ended none
  · split
    · exact h.raised _
    · rename_i hlimit
      rw [hr.limits, ge_iff_le, Int.not_le] at hlimit
      exact hbody _ _ (round_awaits h (hafter _ (if_pos hlimit)))

theorem turn_awaits (hcall : CallsRun limits side least) (h : Awaits limits side least .ending stack) {body : Block Stmt}
    {scope : ScopeId} (hbody : Runs limits side least body.statements) {loop : Loop}
    (hafter : ∀ next, loop.after? limits = some next → Turns limits side body scope stack next) :
    Awaits limits side least .leave (.turn loop body scope :: stack) := by
  refine ⟨h.depth, fun e => .go rfl fun _ _ _ => h.raised e, fun control hmeets => ?_⟩
  cases control with
  | passed =>
    refine .go rfl fun r d _ => ?_
    match loop with
    | .counted i n => exact hbody _ _ (round_awaits h (hafter _ rfl))
    | .conditional i condition => exact evaluates hcall condition scope _ (test_awaits h hbody hafter)
    | .each i [] item index => exact h.ended none
    | .each i (v :: rest) item index => exact hbody _ _ (round_awaits h (hafter _ rfl))
  | _ => cases hmeets

theorem turns (hcall : CallsRun limits side least) (h : Awaits limits side least .ending stack) {body : Block Stmt}
    (hbody : Runs limits side least body.statements) (scope : ScopeId) (loop : Loop) :
    Turns limits side body scope stack loop := by
  induction hleft : loop.left limits using Nat.strongRecOn generalizing loop with
  | ind left ih =>
    have hturn (hless : ∀ next, loop.after? limits = some next → next.left limits < left) :
        Halts limits side ⟨.checkpoint, .turn loop body scope :: stack⟩ :=
      checkpoint_halts (turn_awaits hcall h hbody fun next hnext => ih _ (hless next hnext) next rfl)
    intro r d
    match loop with
    | .counted i n =>
      simp only [Run.nextTurn]
      split
      · rename_i hmore
        refine hturn fun next hnext => ?_
        simp only [Loop.after?, Option.some.injEq] at hnext
        subst hnext
        simp only [Loop.left] at hleft ⊢
        omega
      · exact h.ended none
    | .conditional i condition =>
      refine hturn fun next hnext => ?_
      simp only [Loop.after?, Option.ite_none_right_eq_some, Option.some.injEq] at hnext
      obtain ⟨hlimit, rfl⟩ := hnext
      simp only [Loop.left] at hleft ⊢
      omega
    | .each i [] item index => exact h.ended none
    | .each i (v :: rest) item index =>
      refine hturn fun next hnext => ?_
      simp only [Loop.after?, Option.some.injEq] at hnext
      subst hnext
      simp only [Loop.left, List.length_cons] at hleft ⊢
      omega

theorem count_awaits (hcall : CallsRun limits side least) (h : Awaits limits side least .ending stack) {body : Block Stmt}
    (hbody : Runs limits side least body.statements) (scope : ScopeId) :
    Awaits limits side least .value (.count body scope :: stack) := by
  refine h.onValue rfl fun r d v _ => ?_
  simp only [Run.giveValue]
  split
  · exact turns hcall h hbody scope _ r d
  · exact h.raised _

theorem items_awaits (hcall : CallsRun limits side least) (h : Awaits limits side least .ending stack) {body : Block Stmt}
    (hbody : Runs limits side least body.statements) (item : String) (index : Option String) (scope : ScopeId) :
    Awaits limits side least .value (.items item index body scope :: stack) := by
  refine h.onValue rfl fun r d v _ => ?_
  simp only [Run.giveValue]
  split
  · exact turns hcall h hbody scope _ r d
  · exact h.raised _

mutual

theorem performs (hcall : CallsRun limits side least) (s : Stmt) : Performs limits side least s := by
  intro scope stack h
  refine .go rfl fun r d _ => ?_
  match s with
  | .assign _ (.var _ name) value =>
    exact evaluates hcall value scope _ (statement_awaits h rfl fun _ _ _ => ⟨none, rfl⟩)
  | .assign _ (.property _ base key) value =>
    exact evaluates hcall base scope _ (assignBase_awaits h (evaluates hcall key) (evaluates hcall value) scope)
  | .print _ message => exact evaluates hcall message scope _ (statement_awaits h rfl fun _ _ _ => ⟨none, rfl⟩)
  | .branch _ condition ⟨_, yes⟩ none =>
    exact evaluates hcall condition scope _ (branch_awaits h (runs hcall yes) (by rintro block ⟨⟩) scope)
  | .branch _ condition ⟨_, yes⟩ (some ⟨_, no⟩) =>
    refine evaluates hcall condition scope _ (branch_awaits h (runs hcall yes) (fun block hblock => ?_) scope)
    rw [← Option.some.inj hblock]
    exact runs hcall no
  | .counted _ ⟨_, body⟩ count => exact evaluates hcall count scope _ (count_awaits hcall h (runs hcall body) scope)
  | .conditional _ ⟨_, body⟩ condition => exact turns hcall h (runs hcall body) scope _ r d
  | .foreach _ item iterable ⟨_, body⟩ index =>
    exact evaluates hcall iterable scope _ (items_awaits hcall h (runs hcall body) item index scope)
  | .leave _ | .skip _ | .giveBack _ none | .define _ _ _ _ => exact h.ended _
  | .giveBack _ (some e) => exact evaluates hcall e scope _ (statement_awaits h rfl fun _ _ v => ⟨some (.back v), rfl⟩)
  | .command _ c => exact evaluateOperands_halts h c [] (evaluates_all hcall _) scope
  | .attempt _ ⟨_, tryBlock⟩ ⟨_, catchBlock⟩ errorVar =>
    exact runs hcall tryBlock _ _ (attempt_awaits h (runs hcall catchBlock) errorVar scope)
  | .on _ event body => exact evaluates hcall event scope _ (statement_awaits h rfl fun _ _ _ => ⟨none, rfl⟩)
  | .emit _ event payload =>
    exact evaluates hcall event scope _ (emitName_awaits h (fun e _ => evaluates hcall e) scope)
  | .evaluate _ e => exact evaluates hcall e scope _ (statement_awaits h rfl fun _ _ _ => ⟨none, rfl⟩)

theorem runs (hcall : CallsRun limits side least) (stmts : List Stmt) : Runs limits side least stmts := by
  intro scope stack h
  refine .go rfl fun r d _ => ?_
  match stmts with
  | [] => exact h.ended none
  | s :: rest =>
    have hlocated := located_awaits (following_awaits h (runs hcall rest) scope) s.span
    exact descend_halts hlocated (checkpoint_halts (entering_awaits hlocated (performs hcall s) scope))

end

/-- Calls run at every depth: there is no call beyond the limit, and one call less is left above every other. -/
theorem callsRun (limits : Limits) (side : Side) (least : Nat) : CallsRun limits side least := by
  induction hleft : (limits.maxCallDepth - least).toNat generalizing least with
  | zero =>
    intro hless
    omega
  | succ left ih =>
    intro _
    exact runs (ih (least + 1) (by omega))

theorem frame_awaits (frame : Frame) {given : Need} (hgives : frame.gives = some given)
    (h : Awaits limits side least given stack) : Awaits limits side least frame.need (frame :: stack) := by
  have hcall := callsRun limits side least
  match frame, given, hgives with
  | .following stmts scope, _, rfl => exact following_awaits h (runs hcall stmts) scope
  | .located span, _, rfl => exact located_awaits h span
  | .entering s scope, _, rfl => exact entering_awaits h (performs hcall s) scope
  | .assignVar _ _, _, rfl | .print, _, rfl | .giveBack, _, rfl | .subscribe _ _, _, rfl | .discard, _, rfl =>
    exact statement_awaits h rfl fun _ _ _ => ⟨_, rfl⟩
  | .assignBase key value scope, _, rfl => exact assignBase_awaits h (evaluates hcall key) (evaluates hcall value) scope
  | .assignKey base value scope, _, rfl => exact assignKey_awaits h base (evaluates hcall value) scope
  | .assignValue base key, _, rfl => exact assignValue_awaits h base key
  | .branch yes no scope, _, rfl =>
    exact branch_awaits h (runs hcall _) (fun block _ => runs hcall block.statements) scope
  | .count body scope, _, rfl => exact count_awaits hcall h (runs hcall _) scope
  | .items item index body scope, _, rfl => exact items_awaits hcall h (runs hcall _) item index scope
  | .operands c values left scope, _, rfl => exact operands_awaits h c values (evaluates_all hcall left) scope
  | .emitName payload scope, _, rfl => exact emitName_awaits h (fun e _ => evaluates hcall e) scope
  | .emitPayload name, _, rfl => exact emitPayload_awaits h name
  | .turn loop body scope, _, rfl =>
    exact turn_awaits hcall h (runs hcall _) fun next _ => turns hcall h (runs hcall _) scope next
  | .test i condition body scope, _, rfl =>
    exact test_awaits h (runs hcall _) fun next _ => turns hcall h (runs hcall _) scope next
  | .round loop body scope, _, rfl => exact round_awaits h (turns hcall h (runs hcall _) scope loop)
  | .attempt catchBlock errorVar scope, _, rfl => exact attempt_awaits h (runs hcall _) errorVar scope
  | .call name, _, rfl =>
    have hawaits := call_awaits h name
    exact ⟨Nat.le_of_succ_le hawaits.depth, hawaits.raised, hawaits.given⟩
  | .left op right scope, _, rfl => exact left_awaits h op (evaluates hcall right) scope
  | .right op v, _, rfl => exact right_awaits h op v
  | .logic op right scope, _, rfl => exact logic_awaits h op (evaluates hcall right) scope
  | .truth, _, rfl => exact truth_awaits h
  | .unary op, _, rfl => exact unary_awaits h op
  | .base key scope, _, rfl => exact base_awaits h (evaluates hcall key) scope
  | .key v, _, rfl => exact key_awaits h v
  | .arguments name values left scope, _, rfl =>
    exact arguments_awaits hcall h name values (evaluates_all hcall left) scope
  | .elements values left scope, _, rfl => exact elements_awaits h values (evaluates_all hcall left) scope
  | .entries values key left scope, _, rfl => exact entries_awaits h values key (evaluates_entries hcall left) scope
  | .collaborator task after, _, rfl => exact collaborator_awaits h task after
  | .requested, _, rfl => exact requested_awaits h
  | .clearing, _, rfl => exact clearing_awaits h

def InBody (stack : List Frame) : Prop := stack.getLast? = some .program ∨ stack.getLast? = some .handler

theorem inBody_cons {frame : Frame} {stack : List Frame} (hne : stack ≠ []) :
    InBody (frame :: stack) ↔ InBody stack := by
  unfold InBody
  rw [List.getLast?_cons_of_ne_nil hne]

theorem base_halts {frame : Frame} (hbase : frame = .program ∨ frame = .handler) :
    Awaits limits side 0 frame.need [frame] := by
  have hstack : [frame] = [.program] ∨ [frame] = [.handler] := by
    rcases hbase with rfl | rfl
    · exact .inl rfl
    · exact .inr rfl
  have hneed : frame.need = .ending := by rcases hbase with rfl | rfl <;> rfl
  refine ⟨Nat.zero_le _, fun e => .finished ⟨hstack, .inr ⟨e, rfl⟩⟩, fun control hmeets => ?_⟩
  rw [hneed] at hmeets
  cases control with
  | ended signal => exact .finished ⟨hstack, .inl ⟨signal, rfl⟩⟩
  | _ => cases hmeets

theorem awaits_of_stacked (limits : Limits) (side : Side) {need : Need} {stack : List Frame} (hs : Stacked need stack)
    (hbody : InBody stack) : Awaits limits side 0 need stack := by
  induction stack generalizing need with
  | nil => exact hs.elim
  | cons frame rest ih =>
    obtain ⟨rfl, -, hbelow⟩ := hs
    cases hgives : frame.gives with
    | none =>
      rw [hgives] at hbelow
      subst hbelow
      refine base_halts ?_
      rcases hbody with hbody | hbody
      · exact .inl (Option.some.inj hbody)
      · exact .inr (Option.some.inj hbody)
    | some given =>
      rw [hgives] at hbelow
      have hne : rest ≠ [] := by
        rintro rfl
        exact hbelow.elim
      exact frame_awaits frame hgives (ih hbelow ((inBody_cons hne).1 hbody))

theorem halts_of_fits (limits : Limits) (side : Side) {t : Thread} (hfits : t.Fits) (hbody : InBody t.stack) :
    Halts limits side t := by
  obtain ⟨control, stack⟩ := t
  have hcall := callsRun limits side 0
  have hnotEmpty (hempty : stack = []) : Halts limits side ⟨control, stack⟩ := by
    subst hempty
    rcases hbody with hbody | hbody <;> cases hbody
  match control with
  | .statements stmts scope => exact runs hcall stmts scope stack (awaits_of_stacked limits side hfits.1 hbody)
  | .perform s scope => exact performs hcall s scope stack (awaits_of_stacked limits side hfits.1 hbody)
  | .evaluate e scope => exact evaluates hcall e scope stack (awaits_of_stacked limits side hfits hbody)
  | .value v => exact (awaits_of_stacked limits side hfits hbody).value v
  | .ended signal => exact (awaits_of_stacked limits side hfits.1 hbody).ended signal
  | .raised e =>
    obtain ⟨need, hs⟩ := hfits
    exact (awaits_of_stacked limits side hs hbody).raised e
  | .checkpoint => exact checkpoint_halts (awaits_of_stacked limits side hfits hbody)
  | .recheck => exact recheck_halts (awaits_of_stacked limits side hfits hbody)
  | .clear => exact clear_halts (awaits_of_stacked limits side hfits hbody)
  | .passed => exact (awaits_of_stacked limits side hfits hbody).passed
  | .request work => exact request_halts (awaits_of_stacked limits side hfits hbody) work
  | .resume id releases => exact resume_halts (awaits_of_stacked limits side hfits hbody) id releases
  | .replied result => exact (awaits_of_stacked limits side hfits hbody).replied result
  | .start | .receive | .settle _ | .finished => exact hnotEmpty hfits

end

end DeskScript
