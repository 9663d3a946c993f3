import DeskScript.Proofs.Machine.Desk
import DeskScript.Machine.Step

set_option autoImplicit false

/-!
# What every step keeps

A step leads from a thread that fits to a thread that fits, with a run whose functions are confined, a desk whose mail is
confined, and a call depth that covers the calls on the stacks. `step_sound` says so for one step, one function of the
machine at a time.
-/

namespace DeskScript

namespace Run

structure Sound (r : Run) : Prop where
  program : ∀ p, r.program = some p → Stmt.allConfined false p.statements = true
  functions : ∀ name f, r.functions.get? name = some f → f.body.Confined false

/-- A change of a run that its threads do not notice: what is executed and counted stays. -/
structure Quiet (r r' : Run) : Prop where
  id : r'.id = r.id
  name : r'.name = r.name
  program : r'.program = r.program
  limits : r'.limits = r.limits
  startedAt : r'.startedAt = r.startedAt
  main : r'.main = r.main
  worker : r'.worker = r.worker
  functions : r'.functions = r.functions
  callDepth : r'.callDepth = r.callDepth

/-- A change of a run that keeps its threads, as they were stored, and its terms. -/
structure Kept (r r' : Run) : Prop where
  id : r'.id = r.id
  name : r'.name = r.name
  program : r'.program = r.program
  limits : r'.limits = r.limits
  startedAt : r'.startedAt = r.startedAt
  main : r'.main = r.main
  worker : r'.worker = r.worker

structure SameTerms (r r' : Run) : Prop where
  name : r'.name = r.name
  program : r'.program = r.program
  limits : r'.limits = r.limits
  startedAt : r'.startedAt = r.startedAt

variable {r r' r'' : Run}

theorem SameTerms.refl (r : Run) : r.SameTerms r := ⟨rfl, rfl, rfl, rfl⟩

theorem SameTerms.trans (h : r.SameTerms r') (h' : r'.SameTerms r'') : r.SameTerms r'' :=
  ⟨h'.name.trans h.name, h'.program.trans h.program, h'.limits.trans h.limits, h'.startedAt.trans h.startedAt⟩

theorem Kept.terms (h : r.Kept r') : r.SameTerms r' := ⟨h.name, h.program, h.limits, h.startedAt⟩

theorem Quiet.refl (r : Run) : r.Quiet r := ⟨rfl, rfl, rfl, rfl, rfl, rfl, rfl, rfl, rfl⟩

theorem Quiet.trans (h : r.Quiet r') (h' : r'.Quiet r'') : r.Quiet r'' :=
  ⟨h'.id.trans h.id, h'.name.trans h.name, h'.program.trans h.program, h'.limits.trans h.limits,
    h'.startedAt.trans h.startedAt, h'.main.trans h.main, h'.worker.trans h.worker, h'.functions.trans h.functions,
    h'.callDepth.trans h.callDepth⟩

theorem Quiet.kept (h : r.Quiet r') : r.Kept r' := ⟨h.id, h.name, h.program, h.limits, h.startedAt, h.main, h.worker⟩

theorem Kept.trans (h : r.Kept r') (h' : r'.Kept r'') : r.Kept r'' :=
  ⟨h'.id.trans h.id, h'.name.trans h.name, h'.program.trans h.program, h'.limits.trans h.limits,
    h'.startedAt.trans h.startedAt, h'.main.trans h.main, h'.worker.trans h.worker⟩

theorem Sound.quiet (h : r.Sound) (hq : r.Quiet r') : r'.Sound := by
  refine ⟨fun p hp => h.program p ?_, fun name f hf => h.functions name f ?_⟩
  · rw [← hq.program, hp]
  · rw [← hq.functions, hf]

@[simp] theorem descend_run (r : Run) (d : Desk) (control : Control) (frame : Frame) (stack : List Frame) :
    (r.descend d control frame stack).run = r := by
  unfold descend
  split <;> rfl

theorem extend_quiet (r : Run) (parent : ScopeId) (label : String) (boundary : Bool) (bindings : Dict Value) :
    r.Quiet (r.extend parent label boundary bindings).2 := ⟨rfl, rfl, rfl, rfl, rfl, rfl, rfl, rfl, rfl⟩

theorem becomeIdle_quiet (r : Run) (d : Desk) : r.Quiet (r.becomeIdle d).1 := by
  unfold becomeIdle
  split
  · exact .refl r
  · exact ⟨rfl, rfl, rfl, rfl, rfl, rfl, rfl, rfl, rfl⟩

theorem becomeIdle_still (r : Run) (d : Desk) : d.Still (r.becomeIdle d).2 := by
  unfold becomeIdle
  split
  · exact .refl d
  · exact d.wakeAll_still _

theorem define_sound (h : r.Sound) (name : String) (params : List String) {body : Block Stmt} (closure : ScopeId)
    (hbody : body.Confined false) : (r.define name params body closure).Sound := by
  refine ⟨h.program, fun other f hf => ?_⟩
  by_cases hname : other = name
  · subst hname
    simp only [define, Dict.get?_insert_self, Option.some.injEq] at hf
    subst hf
    exact hbody
  · simp only [define, Dict.get?_insert_of_ne _ _ _ _ hname] at hf
    exact h.functions other f hf

theorem hoist_sound (h : r.Sound) {stmts : List Stmt} (hs : Stmt.allConfined false stmts = true) :
    (r.hoist stmts).Sound := by
  unfold hoist
  induction stmts generalizing r with
  | nil => exact h
  | cons s stmts ih =>
    rw [Stmt.allConfined, Bool.and_eq_true] at hs
    rw [List.foldl_cons]
    refine ih ?_ hs.2
    split
    · exact define_sound h _ _ _ hs.1
    · exact h

theorem hoist_kept (r : Run) (stmts : List Stmt) : r.Kept (r.hoist stmts) ∧ (r.hoist stmts).callDepth = r.callDepth := by
  unfold hoist
  induction stmts generalizing r with
  | nil => exact ⟨⟨rfl, rfl, rfl, rfl, rfl, rfl, rfl⟩, rfl⟩
  | cons s stmts ih =>
    rw [List.foldl_cons]
    split
    · refine ⟨Kept.trans ?_ (ih _).1, (ih _).2⟩
      exact ⟨rfl, rfl, rfl, rfl, rfl, rfl, rfl⟩
    · exact ih r

end Run

/-- What a step keeps. `r` is the run before it, `other` the number of calls on the stack of the other thread. -/
structure Step.Sound (r : Run) (other : Nat) (s : Step) : Prop where
  run : s.run.Sound
  desk : s.desk.Sound
  kept : r.Kept s.run
  fits : s.thread.Fits
  counted : calls s.thread.stack + other ≤ s.run.callDepth
  rests : s.pace ≠ .go → s.thread.control.atRest = true

theorem Step.Sound.of_kept {r r' : Run} {other : Nat} {s : Step} (h : s.Sound r' other) (hk : r.Kept r') :
    s.Sound r other :=
  ⟨h.run, h.desk, hk.trans h.kept, h.fits, h.counted, h.rests⟩

/-- What a step starts from, with a stack below the frames it works on. -/
structure Scene (other : Nat) (r : Run) (d : Desk) (stack : List Frame) : Prop where
  run : r.Sound
  desk : d.Sound
  counted : calls stack + other ≤ r.callDepth

namespace Scene

variable {other : Nat} {r r' : Run} {d d' : Desk} {stack stack' : List Frame} {control : Control}

theorem quiet (h : Scene other r d stack) (hq : r.Quiet r') (hd : d'.Sound) : Scene other r' d' stack :=
  ⟨h.run.quiet hq, hd, hq.callDepth ▸ h.counted⟩

theorem quietly (h : Scene other r d stack) (hq : r.Quiet r') : Scene other r' d stack := h.quiet hq h.desk

theorem pop {frame : Frame} (h : Scene other r d (frame :: stack)) : Scene other r d stack :=
  ⟨h.run, h.desk, Nat.le_trans (Nat.add_le_add_right (calls_le_cons frame stack) other) h.counted⟩

theorem bare (h : Scene other r d stack) : Scene other r d [] :=
  ⟨h.run, h.desk, Nat.le_trans (Nat.add_le_add_right (Nat.zero_le _) other) h.counted⟩

theorem go (h : Scene other r d stack) (hfits : control.Fits stack) : (Step.go r d control stack).Sound r other :=
  ⟨h.run, h.desk, (Run.Quiet.refl r).kept, hfits, h.counted, fun hgo => absurd rfl hgo⟩

theorem rest (h : Scene other r d stack) (hfits : control.Fits stack) (hrest : control.atRest = true) (pace : Pace) :
    Step.Sound r other ⟨r, d, ⟨control, stack⟩, pace⟩ :=
  ⟨h.run, h.desk, (Run.Quiet.refl r).kept, hfits, h.counted, fun _ => hrest⟩

theorem push (h : Scene other r d stack) {frame : Frame} (hfits : control.Fits (frame :: stack))
    (hcalls : calls (frame :: stack) = calls stack) : (Step.go r d control (frame :: stack)).Sound r other :=
  ⟨h.run, h.desk, (Run.Quiet.refl r).kept, hfits, show calls (frame :: stack) + other ≤ r.callDepth by
    rw [hcalls]; exact h.counted, fun hgo => absurd rfl hgo⟩

theorem raise (h : Scene other r d stack) {need : Need} (e : Raised) (hs : Stacked need stack) :
    (Step.raise r d e stack).Sound r other :=
  h.go ⟨need, hs⟩

theorem descend (h : Scene other r d stack) {need : Need} {frame : Frame} (hs : Stacked need stack)
    (hfits : control.Fits (frame :: stack)) (hcalls : calls (frame :: stack) = calls stack) :
    (r.descend d control frame stack).Sound r other := by
  unfold Run.descend
  split
  · exact h.push hfits hcalls
  · exact h.raise _ hs

theorem fail (h : Scene other r d stack) {need : Need} (cause : Cause) (hs : Stacked need stack) :
    (Step.fail r d cause stack).Sound r other :=
  h.raise _ hs

theorem value (h : Scene other r d stack) (v : Value) (hs : Stacked .value stack) :
    (Step.value r d v stack).Sound r other :=
  h.go hs

theorem ended (h : Scene other r d stack) (hs : Stacked .ending stack) : (Step.ended r d stack).Sound r other :=
  h.go ⟨hs, nofun⟩

theorem valueOr (h : Scene other r d stack) (result : Except Failure Value) (hs : Stacked .value stack) :
    (Step.valueOr r d result stack).Sound r other := by
  unfold Step.valueOr
  split
  · exact h.value _ hs
  · exact h.raise _ hs

theorem block (h : Scene other r d stack) (parent : ScopeId) (label : String) (bindings : Dict Value) {stmts : List Stmt}
    (hs : Stacked .ending stack) (hstmts : Stmt.allConfined (loopAround stack) stmts = true) :
    (Step.go (r.extend parent label false bindings).2 d (.statements stmts (r.extend parent label false bindings).1)
      stack).Sound r other := by
  have hquiet := r.extend_quiet parent label false bindings
  refine Step.Sound.of_kept ((h.quietly hquiet).go ?_) hquiet.kept
  exact ⟨hs, hstmts⟩

end Scene

namespace Run

variable {other : Nat} {r : Run} {d : Desk} {stack : List Frame} {frame : Frame}

/-- A call fails before the body begins, or the limit leaves room for the body and it begins. -/
theorem callRoutine_cases (r : Run) (d : Desk) (f : Routine) (args : List Value) (stack : List Frame) :
    (∃ e, r.callRoutine d f args stack = .raise r d e stack) ∨
      (r.callDepth : Int) < r.limits.maxCallDepth ∧ ∃ bindings, r.callRoutine d f args stack =
        .go { (r.extend f.closure ("call " ++ f.name) true bindings).2 with callDepth := r.callDepth + 1 } d
          (.statements f.body.statements (r.extend f.closure ("call " ++ f.name) true bindings).1)
          (.call f.name :: stack) := by
  unfold callRoutine
  split
  · exact .inl ⟨_, rfl⟩
  · split
    · exact .inl ⟨_, rfl⟩
    · rename_i hroom
      split
      · exact .inr ⟨Int.not_le.1 hroom, _, rfl⟩
      · exact .inl ⟨_, rfl⟩

theorem callRoutine_sound (h : Scene other r d stack) {f : Routine} (hf : f.body.Confined false) (args : List Value)
    (hs : Stacked .value stack) : (r.callRoutine d f args stack).Sound r other := by
  rcases r.callRoutine_cases d f args stack with ⟨e, hraise⟩ | ⟨-, bindings, hgo⟩
  · rw [hraise]
    exact h.raise e hs
  · rw [hgo]
    refine ⟨⟨h.run.program, h.run.functions⟩, h.desk, ⟨rfl, rfl, rfl, rfl, rfl, rfl, rfl⟩, ⟨⟨rfl, rfl, hs⟩, hf⟩, ?_,
      fun hgo => absurd rfl hgo⟩
    have hcounted := h.counted
    change calls stack + 1 + other ≤ r.callDepth + 1
    omega

theorem invoke_sound (h : Scene other r d stack) (name : String) (args : List Value) (hs : Stacked .value stack) :
    (r.invoke d name args stack).Sound r other := by
  unfold invoke
  split
  · rename_i f hf
    exact callRoutine_sound h (h.run.functions name f hf) args hs
  · have hheap : r.Quiet { r with heap := (Builtin.call name r.heap d.host args).heap } :=
      ⟨rfl, rfl, rfl, rfl, rfl, rfl, rfl, rfl, rfl⟩
    have hhost : d.Still { d with host := (Builtin.call name r.heap d.host args).host } :=
      ⟨rfl, congrArg Bus.subscriptions (Builtin.call_bus name r.heap d.host args).1⟩
    have h' := h.quiet hheap (h.desk.still hhost)
    dsimp only
    split
    · exact (h'.raise _ hs).of_kept hheap.kept
    · exact (h'.value _ hs).of_kept hheap.kept
    · refine Step.Sound.of_kept (h'.push ?_ rfl) hheap.kept
      exact ⟨rfl, rfl, hs⟩

theorem evaluate_sound (h : Scene other r d stack) (scope : ScopeId) (e : Expr) (hs : Stacked .value stack) :
    (r.evaluate d scope stack e).Sound r other := by
  have hheap (heap : Heap) : r.Quiet { r with heap } := ⟨rfl, rfl, rfl, rfl, rfl, rfl, rfl, rfl, rfl⟩
  match e with
  | .literal _ l => exact h.value _ hs
  | .var _ name =>
    rw [evaluate]
    split
    · exact h.value _ hs
    · exact h.fail _ hs
  | .binary _ op left right => exact h.descend hs ⟨rfl, rfl, hs⟩ rfl
  | .logic _ op left right => exact h.descend hs ⟨rfl, rfl, hs⟩ rfl
  | .unary _ op operand => exact h.descend hs ⟨rfl, rfl, hs⟩ rfl
  | .call _ name [] => exact invoke_sound h name [] hs
  | .call _ name (first :: rest) => exact h.descend hs ⟨rfl, rfl, hs⟩ rfl
  | .array _ [] => exact ((h.quietly (hheap _)).value _ hs).of_kept (hheap _).kept
  | .array _ (first :: rest) => exact h.descend hs ⟨rfl, rfl, hs⟩ rfl
  | .object _ [] => exact ((h.quietly (hheap _)).value _ hs).of_kept (hheap _).kept
  | .object _ ((key, first) :: rest) => exact h.descend hs ⟨rfl, rfl, hs⟩ rfl
  | .template _ segments => exact h.valueOr _ hs
  | .property _ base key => exact h.descend hs ⟨rfl, rfl, hs⟩ rfl

theorem nextTurn_sound (h : Scene other r d stack) (loop : Loop) {body : Block Stmt} (scope : ScopeId)
    (hbody : body.Confined true) (hs : Stacked .ending stack) : (r.nextTurn d loop body scope stack).Sound r other := by
  have hturn : (Step.go r d .checkpoint (.turn loop body scope :: stack)).Sound r other := h.push ⟨rfl, hbody, hs⟩ rfl
  match loop with
  | .counted i n =>
    rw [nextTurn]
    split
    · exact hturn
    · exact h.ended hs
  | .conditional i condition => exact hturn
  | .each i [] item index => exact h.ended hs
  | .each i (v :: rest) item index => exact hturn

theorem runTurn_sound (h : Scene other r d stack) (next : Loop) {body : Block Stmt} (scope : ScopeId) (label : String)
    (bindings : Dict Value) (hbody : body.Confined true) (hs : Stacked .ending stack) :
    (r.runTurn d next body scope label bindings stack).Sound r other := by
  have hquiet := r.extend_quiet scope label false bindings
  have h' := h.quietly hquiet
  refine Step.Sound.of_kept (h'.push ?_ rfl) hquiet.kept
  exact ⟨⟨rfl, hbody, hs⟩, hbody⟩

theorem takeTurn_sound (h : Scene other r d stack) (loop : Loop) {body : Block Stmt} (scope : ScopeId)
    (hbody : body.Confined true) (hs : Stacked .ending stack) : (r.takeTurn d loop body scope stack).Sound r other := by
  match loop with
  | .counted i n => exact runTurn_sound h _ scope _ _ hbody hs
  | .conditional i condition => exact h.push ⟨rfl, hbody, hs⟩ rfl
  | .each i [] item index => exact h.ended hs
  | .each i (v :: rest) item index => exact runTurn_sound h _ scope _ _ hbody hs

theorem changeFiles_still (d : Desk) (task : String) (change : FileStore → Except Fault FileStore) :
    d.Still (changeFiles d task change).1 := by
  unfold changeFiles
  split
  · exact ⟨rfl, rfl⟩
  · exact .refl d

theorem command_sound (hd : d.Sound) (scope : ScopeId) (c : Command Value) :
    r.Quiet (r.command d scope c).1 ∧ (r.command d scope c).2.1.Sound := by
  have hr : r.Quiet r := .refl r
  match c with
  | .alert _ | .confirm _ _ | .prompt _ _ _ | .launch _ _ | .close (some _) | .window _ _ | .other _ _ => exact ⟨hr, hd⟩
  | .notify _ | .play _ => exact ⟨hr, hd.publish _⟩
  | .write _ _ | .mkdir _ | .delete _ => exact ⟨hr, hd.still (changeFiles_still d _ _)⟩
  | .read _ _ =>
    simp only [command]
    split
    · exact ⟨⟨rfl, rfl, rfl, rfl, rfl, rfl, rfl, rfl, rfl⟩, hd⟩
    · exact ⟨hr, hd⟩
  | .close none =>
    simp only [command]
    split <;> exact ⟨hr, hd⟩
  | .wait _ =>
    simp only [command]
    split <;> exact ⟨hr, hd⟩

theorem runCommand_sound (h : Scene other r d stack) (scope : ScopeId) (c : Command Value) (hs : Stacked .ending stack) :
    (r.runCommand d scope c stack).Sound r other := by
  obtain ⟨hquiet, hdesk⟩ := command_sound (r := r) h.desk scope c
  have h' := h.quiet hquiet hdesk
  simp only [runCommand]
  split
  · exact (h'.ended hs).of_kept hquiet.kept
  · exact (h'.raise _ hs).of_kept hquiet.kept
  · refine Step.Sound.of_kept (h'.push ?_ rfl) hquiet.kept
    exact ⟨rfl, rfl, hs⟩

theorem evaluateOperands_sound (h : Scene other r d stack) (c : Command Expr) (given : List Value) (left : List Expr)
    (scope : ScopeId) (hs : Stacked .ending stack) : (r.evaluateOperands d c given left scope stack).Sound r other := by
  unfold evaluateOperands
  split
  · exact h.push ⟨rfl, rfl, hs⟩ rfl
  · split
    · exact runCommand_sound h scope _ hs
    · exact h.ended hs

theorem perform_sound (h : Scene other r d stack) (scope : ScopeId) (s : Stmt) (hs : Stacked .ending stack)
    (hconfined : s.confined (loopAround stack) = true) : (r.perform d scope stack s).Sound r other := by
  match s with
  | .assign _ (.var _ name) value => exact h.push ⟨rfl, rfl, hs⟩ rfl
  | .assign _ (.property _ base key) value => exact h.push ⟨rfl, rfl, hs⟩ rfl
  | .print _ message => exact h.push ⟨rfl, rfl, hs⟩ rfl
  | .branch _ condition yes none => exact h.push ⟨rfl, hconfined, hs⟩ rfl
  | .branch _ condition yes (some no) => exact h.push ⟨rfl, hconfined, hs⟩ rfl
  | .counted _ body count => exact h.push ⟨rfl, hconfined, hs⟩ rfl
  | .conditional _ body condition => exact nextTurn_sound h (.conditional 0 condition) scope hconfined hs
  | .foreach _ item iterable body index => exact h.push ⟨rfl, hconfined, hs⟩ rfl
  | .leave _ => exact h.go ⟨hs, fun _ => hconfined⟩
  | .skip _ => exact h.go ⟨hs, fun _ => hconfined⟩
  | .giveBack _ none => exact h.go ⟨hs, nofun⟩
  | .giveBack _ (some e) => exact h.push ⟨rfl, rfl, hs⟩ rfl
  | .define _ name params body =>
    refine ⟨define_sound h.run _ _ _ hconfined, h.desk, ⟨rfl, rfl, rfl, rfl, rfl, rfl, rfl⟩, ⟨hs, nofun⟩, h.counted,
      fun hgo => absurd rfl hgo⟩
  | .command _ c => exact evaluateOperands_sound h c [] _ scope hs
  | .attempt _ tryBlock catchBlock errorVar =>
    rw [Stmt.confined, Bool.and_eq_true] at hconfined
    have hquiet := r.extend_quiet scope "try" false []
    refine Step.Sound.of_kept ((h.quietly hquiet).push ?_ rfl) hquiet.kept
    exact ⟨⟨rfl, hconfined.2, hs⟩, hconfined.1⟩
  | .on _ event body => exact h.push ⟨rfl, hconfined, hs⟩ rfl
  | .emit _ event payload => exact h.push ⟨rfl, rfl, hs⟩ rfl
  | .evaluate _ e => exact h.push ⟨rfl, rfl, hs⟩ rfl

theorem giveBranch_sound (h : Scene other r d stack) (v : Value) {yes : Block Stmt} {no : Option (Block Stmt)}
    (scope : ScopeId) (hconfined : (Frame.branch yes no scope).confined (loopAround stack) = true)
    (hs : Stacked .ending stack) : (r.giveValue d v stack (.branch yes no scope)).Sound r other := by
  have hyes : Stmt.allConfined (loopAround stack) yes.statements = true := by
    cases no with
    | none => exact hconfined
    | some no => exact (Bool.and_eq_true _ _ ▸ hconfined).1
  simp only [giveValue]
  split
  · exact h.block scope "if" [] hs hyes
  · split
    · exact h.ended hs
    · rename_i no
      have hno : Stmt.allConfined (loopAround stack) no.statements = true := (Bool.and_eq_true _ _ ▸ hconfined).2
      exact h.block scope "else" [] hs hno

theorem giveOperand_sound (h : Scene other r d stack) (v : Value) {frame : Frame} (hneed : frame.need = .value)
    (hgives : frame.gives = some .value) (hs : Stacked .value stack) : (r.giveValue d v stack frame).Sound r other := by
  have hheap (heap : Heap) : r.Quiet { r with heap } := ⟨rfl, rfl, rfl, rfl, rfl, rfl, rfl, rfl, rfl⟩
  cases frame with
  | left op right scope => exact h.push ⟨rfl, rfl, hs⟩ rfl
  | right op left =>
    simp only [giveValue]
    split
    · exact ((h.quietly (hheap _)).value _ hs).of_kept (hheap _).kept
    · exact h.raise _ hs
  | logic op right scope =>
    simp only [giveValue]
    split
    · exact h.value _ hs
    · exact h.value _ hs
    · exact h.push ⟨rfl, rfl, hs⟩ rfl
  | truth => exact h.value _ hs
  | unary op => exact h.valueOr _ hs
  | base key scope => exact h.push ⟨rfl, rfl, hs⟩ rfl
  | key base => exact h.valueOr _ hs
  | arguments name given left scope =>
    cases left with
    | nil => exact invoke_sound h name _ hs
    | cons e rest => exact h.push ⟨rfl, rfl, hs⟩ rfl
  | elements given left scope =>
    cases left with
    | nil => exact ((h.quietly (hheap _)).value _ hs).of_kept (hheap _).kept
    | cons e rest => exact h.push ⟨rfl, rfl, hs⟩ rfl
  | entries given key left scope =>
    cases left with
    | nil => exact ((h.quietly (hheap _)).value _ hs).of_kept (hheap _).kept
    | cons e rest => exact h.push ⟨rfl, rfl, hs⟩ rfl
  | call | requested => cases hneed
  | _ => cases hgives

theorem giveStatement_sound (h : Scene other r d stack) (v : Value) {frame : Frame} (hneed : frame.need = .value)
    (hgives : frame.gives = some .ending) (hconfined : frame.confined (loopAround stack) = true)
    (hs : Stacked .ending stack) : (r.giveValue d v stack frame).Sound r other := by
  cases frame with
  | assignVar name scope =>
    have hquiet : r.Quiet (r.assign scope name v) := ⟨rfl, rfl, rfl, rfl, rfl, rfl, rfl, rfl, rfl⟩
    exact ((h.quietly hquiet).ended hs).of_kept hquiet.kept
  | assignBase key value scope => exact h.push ⟨rfl, rfl, hs⟩ rfl
  | assignKey base value scope => exact h.push ⟨rfl, rfl, hs⟩ rfl
  | assignValue base key =>
    have hheap (heap : Heap) : r.Quiet { r with heap } := ⟨rfl, rfl, rfl, rfl, rfl, rfl, rfl, rfl, rfl⟩
    simp only [giveValue]
    split
    · exact ((h.quietly (hheap _)).ended hs).of_kept (hheap _).kept
    · exact h.raise _ hs
  | print =>
    have hquiet : r.Quiet (r.print d (r.heap.display v)).1 := ⟨rfl, rfl, rfl, rfl, rfl, rfl, rfl, rfl, rfl⟩
    exact ((h.quiet hquiet (h.desk.publish _)).ended hs).of_kept hquiet.kept
  | branch yes no scope => exact giveBranch_sound h v scope hconfined hs
  | count body scope =>
    simp only [giveValue]
    split
    · exact nextTurn_sound h _ scope hconfined hs
    · exact h.fail _ hs
  | items item index body scope =>
    simp only [giveValue]
    split
    · exact nextTurn_sound h _ scope hconfined hs
    · exact h.fail _ hs
  | giveBack => exact h.go ⟨hs, nofun⟩
  | operands c given left scope => exact evaluateOperands_sound h c _ left scope hs
  | subscribe body scope =>
    have hquiet : r.Quiet (r.subscribe d (r.heap.display v) body scope).1 := ⟨rfl, rfl, rfl, rfl, rfl, rfl, rfl, rfl, rfl⟩
    have hdesk : (r.subscribe d (r.heap.display v) body scope).2.Sound := h.desk.subscribe _ hconfined
    exact ((h.quiet hquiet hdesk).ended hs).of_kept hquiet.kept
  | emitName payload scope =>
    cases payload with
    | none => exact (h.quiet (.refl r) (h.desk.publish _)).ended hs
    | some payload => exact h.push ⟨rfl, rfl, hs⟩ rfl
  | emitPayload name => exact (h.quiet (.refl r) (h.desk.publish _)).ended hs
  | discard => exact h.ended hs
  | test i condition body scope =>
    simp only [giveValue]
    split
    · exact h.ended hs
    · split
      · exact h.fail _ hs
      · exact runTurn_sound h _ scope _ _ hconfined hs
  | _ => simp [Frame.need, Frame.gives] at hneed hgives

theorem giveValue_sound (h : Scene other r d stack) (v : Value) {frame : Frame} (hs : Stacked .value (frame :: stack)) :
    (r.giveValue d v stack frame).Sound r other := by
  obtain ⟨hneed, hconfined, hbelow⟩ := hs
  match hgives : frame.gives with
  | some .value =>
    rw [hgives] at hbelow
    exact giveOperand_sound h v hneed hgives hbelow
  | some .ending =>
    rw [hgives] at hbelow
    exact giveStatement_sound h v hneed hgives hconfined hbelow
  | some .leave | some .reply | none => cases frame <;> simp [Frame.need, Frame.gives] at hneed hgives

theorem checkpoint_sound (h : Scene other r d stack) (hs : Stacked .leave stack) :
    (r.checkpoint d stack).Sound r other := by
  have hquiet : r.Quiet { r with governor := { r.governor with begun := r.governor.begun + 1 } } :=
    ⟨rfl, rfl, rfl, rfl, rfl, rfl, rfl, rfl, rfl⟩
  have h' := h.quietly hquiet
  unfold checkpoint
  split
  · exact h.raise _ hs
  · dsimp only
    split
    · exact (h'.raise _ hs).of_kept hquiet.kept
    · refine Step.Sound.of_kept (h'.rest ?_ rfl .yield) hquiet.kept
      exact hs
    · refine Step.Sound.of_kept (h'.go ?_) hquiet.kept
      exact hs

theorem recheck_sound (h : Scene other r d stack) (hs : Stacked .leave stack) : (r.recheck d stack).Sound r other := by
  unfold recheck
  split
  · exact h.raise _ hs
  · exact h.go hs

theorem waitClear_sound (h : Scene other r d stack) (side : Side) (hs : Stacked .leave stack) :
    (r.waitClear d side stack).Sound r other := by
  unfold waitClear
  split
  · exact h.go hs
  · exact h.push ⟨rfl, rfl, hs⟩ rfl

theorem pass_sound (h : Scene other r d stack) {frame : Frame} (hs : Stacked .leave (frame :: stack)) :
    (r.pass d stack frame).Sound r other := by
  obtain ⟨hneed, hconfined, hbelow⟩ := hs
  cases frame with
  | entering s scope => exact h.go ⟨hbelow, hconfined⟩
  | turn loop body scope => exact takeTurn_sound h loop scope hconfined hbelow
  | _ => cases hneed

theorem request_sound (h : Scene other r d stack) (side : Side) (work : Work) (hs : Stacked .reply stack) :
    (r.request d side work stack).Sound r other := by
  have hpending : r.Quiet { r with governor := { r.governor with
      pending := r.governor.pending ++ [(d.open_ r.id side work).1] } } := ⟨rfl, rfl, rfl, rfl, rfl, rfl, rfl, rfl, rfl⟩
  have hopened := h.desk.still (d.open_still r.id side work)
  unfold request
  split
  · exact h.raise _ hs
  · cases side with
    | main =>
      refine Step.Sound.of_kept ((h.quiet hpending hopened).rest ?_ rfl .park) hpending.kept
      exact hs
    | worker =>
      have hidle := hpending.trans (becomeIdle_quiet _ (d.open_ r.id .worker work).2)
      refine Step.Sound.of_kept ((h.quiet hidle (hopened.still (becomeIdle_still _ _))).rest ?_ rfl .park) hidle.kept
      exact hs

theorem resume_sound (h : Scene other r d stack) (id : ServiceId) (releases interrupted : Bool)
    (hs : Stacked .reply stack) : (r.resume d id releases interrupted stack).Sound r other := by
  have hquiet : r.Quiet { r with governor := { r.governor with pending := r.governor.pending.erase id,
                                                               idle := r.governor.idle && !(releases && r.governor.handling) } } :=
    ⟨rfl, rfl, rfl, rfl, rfl, rfl, rfl, rfl, rfl⟩
  have h' := h.quietly hquiet
  simp only [resume]
  split
  · exact (h'.raise _ hs).of_kept hquiet.kept
  · split
    · exact (h'.raise _ hs).of_kept hquiet.kept
    · refine Step.Sound.of_kept (h'.go ?_) hquiet.kept
      exact hs
    · exact (h'.raise _ hs).of_kept hquiet.kept

theorem follow_sound (h : Scene other r d stack) (after : After) (p : Plain) (hs : Stacked .ending stack) :
    (r.follow d after p stack).Sound r other := by
  have hassign (scope : ScopeId) (name : String) (v : Value) : r.Quiet (r.assign scope name v) :=
    ⟨rfl, rfl, rfl, rfl, rfl, rfl, rfl, rfl, rfl⟩
  match after with
  | .nothing => exact h.ended hs
  | .storeTruth into scope => exact ((h.quietly (hassign _ _ _)).ended hs).of_kept (hassign _ _ _).kept
  | .storeText into scope => exact ((h.quietly (hassign _ _ _)).ended hs).of_kept (hassign _ _ _).kept
  | .timeout => exact h.raise _ hs

theorem handlerFinished_quiet (r : Run) (d : Desk) : r.Quiet (r.handlerFinished d).1 := by
  have hhandling : r.Quiet { r with governor := { r.governor with handling := false } } :=
    ⟨rfl, rfl, rfl, rfl, rfl, rfl, rfl, rfl, rfl⟩
  exact hhandling.trans (becomeIdle_quiet _ d)

theorem handlerFinished_sound (r : Run) (hd : d.Sound) : (r.handlerFinished d).2.Sound :=
  (hd.still (becomeIdle_still _ d)).handled _

theorem aborted_quiet (r : Run) (d : Desk) (e : ScriptError) : r.Quiet (r.aborted d e).1 :=
  ⟨rfl, rfl, rfl, rfl, rfl, rfl, rfl, rfl, rfl⟩

theorem cancelled_quiet (r : Run) (d : Desk) : r.Quiet (r.cancelled d).1 := ⟨rfl, rfl, rfl, rfl, rfl, rfl, rfl, rfl, rfl⟩

theorem revoke_quiet (r : Run) (d : Desk) : r.Quiet (r.revoke d).1 := ⟨rfl, rfl, rfl, rfl, rfl, rfl, rfl, rfl, rfl⟩

theorem cancelWorker_quiet (r : Run) (d : Desk) : r.Quiet (r.cancelWorker d).1 := by
  unfold cancelWorker
  split
  · exact .refl r
  · split
    · exact ⟨rfl, rfl, rfl, rfl, rfl, rfl, rfl, rfl, rfl⟩
    · exact .refl r
  · exact ⟨rfl, rfl, rfl, rfl, rfl, rfl, rfl, rfl, rfl⟩

theorem cancelWorker_sound (r : Run) (hd : d.Sound) : (r.cancelWorker d).2.Sound := by
  unfold cancelWorker
  split
  · exact hd.still (d.enqueue_still _)
  · split
    · exact hd
    · exact hd.still (d.interrupt_still _)
  · have hbox := hd.modifyBox r.id (f := fun b => { b with waiting := false }) fun _ hb => hb
    dsimp only
    split
    · exact hbox.still (Desk.enqueue_still _ _)
    · exact hbox

theorem revoke_scene (h : Scene other r d stack) : Scene other (r.revoke d).1 (r.revoke d).2 stack :=
  h.quiet (r.revoke_quiet d) (h.desk.unsubscribeAll r.subscriptions)

theorem cancelled_scene (h : Scene other r d stack) : Scene other (r.cancelled d).1 (r.cancelled d).2 stack :=
  h.quiet (r.cancelled_quiet d) (h.desk.still (d.interruptAll_still _))

theorem cancelWorker_scene (h : Scene other r d stack) : Scene other (r.cancelWorker d).1 (r.cancelWorker d).2 stack :=
  h.quiet (r.cancelWorker_quiet d) (r.cancelWorker_sound h.desk)

theorem close_sound (h : Scene other r d []) (ending : Ending) : (r.close d ending).Sound r other := by
  have hclosed := h.desk.modifyBox r.id (f := fun b => { b with closed := true }) fun _ hb => hb
  have hworker := cancelWorker_scene (cancelled_scene (revoke_scene (h.quiet (.refl r) hclosed)))
  have hgather (r : Run) : r.Quiet { r with gathering := true } := ⟨rfl, rfl, rfl, rfl, rfl, rfl, rfl, rfl, rfl⟩
  refine Step.Sound.of_kept ((hworker.quietly (hgather _)).rest ?_ rfl .park) ?_
  · rfl
  · exact ((r.revoke_quiet _).trans ((cancelled_quiet _ _).trans ((cancelWorker_quiet _ _).trans (hgather _)))).kept

theorem retire_sound (h : Scene other r d []) : (r.retire d).Sound r other := by
  have hdesk : (if r.gathering then d.enqueue (.gathered r.id) else d).Sound := by
    split
    · exact h.desk.still (d.enqueue_still _)
    · exact h.desk
  refine (h.quiet (.refl r) hdesk).rest ?_ rfl .finished
  rfl

theorem leaveHandler_sound (h : Scene other r d []) (result : Except Raised Unit) :
    (r.leaveHandler d result).Sound r other := by
  have hfinished {r : Run} {d : Desk} (h : Scene other r d []) : Scene other (r.handlerFinished d).1 (r.handlerFinished d).2 [] :=
    h.quiet (r.handlerFinished_quiet d) (handlerFinished_sound r h.desk)
  have hnext {r : Run} {d : Desk} (h : Scene other r d []) :
      (Step.go (r.handlerFinished d).1 (r.handlerFinished d).2 .receive []).Sound r other := by
    refine Step.Sound.of_kept ((hfinished h).go ?_) (r.handlerFinished_quiet d).kept
    rfl
  have haborted (e : ScriptError) : Scene other (r.aborted d e).1 (r.aborted d e).2 [] :=
    h.quiet (r.aborted_quiet d e) (h.desk.still (d.interruptAll_still _))
  unfold leaveHandler
  split
  · exact hnext h
  · split
    · exact hnext h
    · exact (hnext (haborted _)).of_kept (r.aborted_quiet d _).kept
  · exact (hnext (haborted _)).of_kept (r.aborted_quiet d _).kept
  · exact (retire_sound (hfinished h)).of_kept (r.handlerFinished_quiet d).kept
  · exact (retire_sound (hfinished h)).of_kept (r.handlerFinished_quiet d).kept

theorem leaveCall_scene {name : String} (h : Scene other r d (.call name :: stack)) :
    Scene other { r with callDepth := r.callDepth - 1 } d stack := by
  refine ⟨⟨h.run.program, h.run.functions⟩, h.desk, ?_⟩
  have hcounted : calls stack + 1 + other ≤ r.callDepth := h.counted
  change calls stack + other ≤ r.callDepth - 1
  omega

theorem endBlock_sound (h : Scene other r d (frame :: stack)) (signal : Option Signal)
    (hfits : Control.Fits (frame :: stack) (.ended signal)) : (r.endBlock d signal stack frame).Sound r other := by
  obtain ⟨⟨hneed, hconfined, hbelow⟩, hloop⟩ := hfits
  cases frame with
  | following stmts scope =>
    simp only [endBlock]
    split
    · exact h.pop.go ⟨hbelow, hconfined⟩
    · exact h.pop.go ⟨hbelow, hloop⟩
  | round loop body scope =>
    simp only [endBlock]
    split
    · exact h.pop.ended hbelow
    · exact h.pop.go ⟨hbelow, nofun⟩
    · exact nextTurn_sound h.pop loop scope hconfined hbelow
    · exact nextTurn_sound h.pop loop scope hconfined hbelow
  | call name => exact ((leaveCall_scene h).value _ hbelow).of_kept ⟨rfl, rfl, rfl, rfl, rfl, rfl, rfl⟩
  | handler =>
    obtain rfl : stack = [] := hbelow
    exact leaveHandler_sound h.pop (.ok ())
  | program =>
    obtain rfl : stack = [] := hbelow
    exact h.pop.push ⟨rfl, rfl, rfl⟩ rfl
  | located span => exact h.pop.go ⟨hbelow, hloop⟩
  | attempt catchBlock errorVar scope => exact h.pop.go ⟨hbelow, hloop⟩
  | _ => cases hneed

theorem unwind_sound (h : Scene other r d (frame :: stack)) (e : Raised) {need : Need}
    (hs : Stacked need (frame :: stack)) : (r.unwind d e stack frame).Sound r other := by
  obtain ⟨hneed, hconfined, hbelow⟩ := hs
  match frame with
  | .located span =>
    simp only [unwind]
    split
    · exact h.pop.raise _ hbelow
    · exact h.pop.raise _ hbelow
    · exact h.pop.raise _ hbelow
  | .attempt catchBlock errorVar scope =>
    simp only [unwind]
    split
    · split
      · exact h.pop.block scope "catch" _ hbelow hconfined
      · exact h.pop.raise _ hbelow
    · exact h.pop.raise _ hbelow
  | .call name =>
    have hleft : r.Kept { r with callDepth := r.callDepth - 1 } := ⟨rfl, rfl, rfl, rfl, rfl, rfl, rfl⟩
    simp only [unwind]
    split
    · exact ((leaveCall_scene h).fail _ hbelow).of_kept hleft
    · exact ((leaveCall_scene h).raise _ hbelow).of_kept hleft
  | .handler =>
    obtain rfl : stack = [] := hbelow
    exact leaveHandler_sound h.pop (.error e)
  | .program =>
    obtain rfl : stack = [] := hbelow
    exact close_sound h.pop (endingOf e)
  | .closing v =>
    obtain rfl : stack = [] := hbelow
    exact close_sound h.pop (endingOf e)
  | .following _ _ | .entering _ _ | .assignVar _ _ | .assignBase _ _ _ | .assignKey _ _ _ | .assignValue _ _ | .print
  | .branch _ _ _ | .count _ _ | .items _ _ _ _ | .giveBack | .operands _ _ _ _ | .subscribe _ _ | .emitName _ _
  | .emitPayload _ | .discard | .turn _ _ _ | .test _ _ _ _ | .round _ _ _ | .left _ _ _ | .right _ _ | .logic _ _ _
  | .truth | .unary _ | .base _ _ | .key _ | .arguments _ _ _ _ | .elements _ _ _ | .entries _ _ _ _
  | .collaborator _ _ | .requested | .clearing => exact h.pop.raise e hbelow

theorem reply_sound (h : Scene other r d (frame :: stack)) (result : ServiceResult)
    (hs : Stacked .reply (frame :: stack)) : (r.reply d result stack frame).Sound r other := by
  obtain ⟨hneed, hconfined, hbelow⟩ := hs
  cases frame with
  | collaborator task after =>
    simp only [reply]
    split
    · exact follow_sound h.pop after _ hbelow
    · exact h.pop.raise _ hbelow
    · exact h.pop.raise _ hbelow
    · exact h.pop.ended hbelow
    · exact h.pop.ended hbelow
  | requested =>
    simp only [reply]
    split
    · exact h.pop.value _ hbelow
    · exact h.pop.raise _ hbelow
    · exact h.pop.value _ hbelow
    · exact h.pop.value _ hbelow
  | clearing => exact h.pop.go hbelow
  | closing v =>
    obtain rfl : stack = [] := hbelow
    simp only [reply]
    split
    · exact close_sound h.pop _
    · exact close_sound h.pop _
  | _ => cases hneed

theorem receive_sound (h : Scene other r d []) : (r.receive d).Sound r other := by
  simp only [receive]
  split
  · exact retire_sound h
  · split
    · have hwaiting := h.desk.modifyBox r.id (f := fun b => { b with waiting := true }) fun _ hb => hb
      refine (h.quiet (.refl r) hwaiting).rest ?_ rfl .park
      rfl
    · rename_i mail rest hpop
      have hmail := Queue.toList_of_pop? _ _ _ hpop
      have hbody : mail.body.Confined false := h.desk.mail r.id mail (by simp [hmail])
      have hrest := h.desk.modifyBox r.id (f := fun b => { b with mail := rest })
        fun _ _ m hm => h.desk.mail r.id m (by rw [hmail]; exact List.mem_cons_of_mem mail hm)
      have hstarted : r.Quiet r.handlerStarted := ⟨rfl, rfl, rfl, rfl, rfl, rfl, rfl, rfl, rfl⟩
      have h' := h.quiet hstarted hrest
      split
      · refine Step.Sound.of_kept (h'.push ?_ rfl) hstarted.kept
        exact ⟨.ending, rfl, rfl, rfl⟩
      · rename_i v heap _
        have hheap : r.handlerStarted.Quiet { r.handlerStarted with heap } := ⟨rfl, rfl, rfl, rfl, rfl, rfl, rfl, rfl, rfl⟩
        have hscope := hheap.trans (extend_quiet _ mail.scope "handler" false
          [("event", v), ("eventName", .str mail.event.name)])
        refine Step.Sound.of_kept ((h'.quietly hscope).push ?_ rfl) (hstarted.trans hscope).kept
        exact ⟨⟨rfl, rfl, rfl⟩, hbody⟩

theorem begin_sound (h : Scene other r d []) (side : Side) : (r.begin d side).Sound r other := by
  cases side with
  | worker => exact h.go rfl
  | main =>
    have hhoist (stmts : List Stmt) (hstmts : Stmt.allConfined false stmts = true) :
        (Step.go (r.hoist stmts) (d.enqueue (.thread r.id .worker)) (.statements stmts 0) [.program]).Sound r other := by
      obtain ⟨hkept, hdepth⟩ := r.hoist_kept stmts
      have h' : Scene other (r.hoist stmts) (d.enqueue (.thread r.id .worker)) [] :=
        ⟨hoist_sound h.run hstmts, h.desk.still (d.enqueue_still _), hdepth ▸ h.counted⟩
      refine Step.Sound.of_kept (h'.push ?_ rfl) hkept
      exact ⟨⟨rfl, rfl, rfl⟩, hstmts⟩
    refine hhoist _ ?_
    split
    · rename_i p hp
      exact h.run.program p hp
    · rfl

theorem settle_sound (h : Scene other r d []) (ending : Ending) : (r.settle d ending).Sound r other := by
  have hending : r.Quiet { r with ending := some ending } := ⟨rfl, rfl, rfl, rfl, rfl, rfl, rfl, rfl, rfl⟩
  simp only [settle]
  split
  · refine Step.Sound.of_kept ((h.quiet hending (h.desk.publish _)).rest ?_ rfl .finished) hending.kept
    rfl
  · refine Step.Sound.of_kept ((h.quietly hending).rest ?_ rfl .finished) hending.kept
    rfl

theorem step_sound {t : Thread} (side : Side) (h : Scene other r d t.stack) (hfits : t.Fits) :
    (step side r d t).Sound r other := by
  obtain ⟨control, stack⟩ := t
  match control, stack with
  | .statements [] scope, stack => exact h.ended hfits.1
  | .statements (s :: rest) scope, stack =>
    have hconfined : s.confined (loopAround stack) && Stmt.allConfined (loopAround stack) rest := hfits.2
    rw [Bool.and_eq_true] at hconfined
    have hlocated : Stacked .ending (.located s.span :: .following rest scope :: stack) :=
      ⟨rfl, rfl, rfl, hconfined.2, hfits.1⟩
    have h' : Scene other r d (.located s.span :: .following rest scope :: stack) := ⟨h.run, h.desk, h.counted⟩
    exact h'.descend hlocated ⟨rfl, hconfined.1, hlocated⟩ rfl
  | .perform s scope, stack => exact perform_sound h scope s hfits.1 hfits.2
  | .evaluate e scope, stack => exact evaluate_sound h scope e hfits
  | .value v, frame :: stack => exact giveValue_sound h.pop v hfits
  | .ended signal, frame :: stack => exact endBlock_sound h signal hfits
  | .raised e, frame :: stack => exact unwind_sound h e hfits.choose_spec
  | .checkpoint, stack => exact checkpoint_sound h hfits
  | .recheck, stack => exact recheck_sound h hfits
  | .clear, stack => exact waitClear_sound h side hfits
  | .passed, frame :: stack => exact pass_sound h.pop hfits
  | .request work, stack => exact request_sound h side work hfits
  | .resume id releases, stack => exact resume_sound h id releases false hfits
  | .replied result, frame :: stack => exact reply_sound h result hfits
  | .start, stack =>
    obtain rfl : stack = [] := hfits
    exact begin_sound h side
  | .receive, stack =>
    obtain rfl : stack = [] := hfits
    exact receive_sound h
  | .settle ending, stack =>
    obtain rfl : stack = [] := hfits
    exact settle_sound h ending
  | .finished, stack =>
    obtain rfl : stack = [] := hfits
    refine h.rest ?_ rfl .finished
    rfl
  | .raised e, [] => exact hfits.choose_spec.elim

theorem interruptWorker_sound {t : Thread} (h : Scene other r d t.stack) (hfits : t.Fits) :
    (r.interruptWorker d t).Sound r other := by
  obtain ⟨control, stack⟩ := t
  have hquiet : r.Quiet { r with workerCancelled := false } := ⟨rfl, rfl, rfl, rfl, rfl, rfl, rfl, rfl, rfl⟩
  have h' := h.quietly hquiet
  simp only [interruptWorker]
  split
  · exact (resume_sound h' _ _ true hfits).of_kept hquiet.kept
  · exact (h'.raise .interrupted hfits).of_kept hquiet.kept
  · exact (retire_sound h'.bare).of_kept hquiet.kept

end Run

end DeskScript
