import DeskScript.Proofs.Machine.Carrying
import DeskScript.Proofs.Machine.Gathering

set_option autoImplicit false

/-!
# How deep calls go

The call depth of a run counts the bodies of functions that its threads are in, on every way into a body and out of it. It
stays within the limit, and a call is refused where the limit is reached. Where the stack of the interpreter is exhausted
first, the innermost body that is running ends with an error of the same kind. Main statement: `calls_balanced`.
-/

namespace DeskScript

inductive Thread.Begins (base : List Frame) : Thread → Prop
  | expression (e : Expr) (scope : ScopeId) : Begins base ⟨.evaluate e scope, base⟩
  | statement (s : Stmt) (scope : ScopeId) : Begins base ⟨.perform s scope, base⟩

inductive Thread.Calls (name : String) (rest : List Frame) : List Value → Thread → Prop
  | bare (span : Span) (scope : ScopeId) : Calls name rest [] ⟨.evaluate (.call span name []) scope, rest⟩
  | full (v : Value) (given : List Value) (scope : ScopeId) :
      Calls name rest (v :: given).reverse ⟨.value v, .arguments name given [] scope :: rest⟩

variable {t : Thread} {base : List Frame}

theorem Thread.Begins.stack (h : t.Begins base) : t.stack = base := by
  cases h <;> rfl

/-- An expression is for a value, a statement for an ending. -/
theorem Thread.Begins.stacked (h : t.Begins base) (hfits : t.Fits) : Stacked .value base ∨ Stacked .ending base := by
  cases h with
  | expression e scope => exact .inl hfits
  | statement s scope => exact .inr hfits.1

/-- What is given on top of `base` is the outcome that `base` waits for. -/
theorem Thread.isOver_of_given (hbase : Stacked .value base ∨ Stacked .ending base) (hfits : t.Fits)
    (hstack : t.stack = base) (hgiven : t.control.isGiven = true) : t.IsOver base := by
  refine ⟨hstack, ?_⟩
  subst hstack
  have hmeets : (∃ e, t.control = .raised e) ∨ t.control.meets .value = true ∨ t.control.meets .ending = true := by
    rcases hbase with hs | hs
    · exact (hfits.given hs hgiven).imp_right .inl
    · exact (hfits.given hs hgiven).imp_right .inr
  rcases hmeets with ⟨e, hcontrol⟩ | hmeets | hmeets
  · rw [hcontrol]
    rfl
  · cases hcontrol : t.control <;> rw [hcontrol] at hmeets <;> first | rfl | cases hmeets
  · cases hcontrol : t.control <;> rw [hcontrol] at hmeets <;> first | rfl | cases hmeets

namespace Moment

variable {m n : Moment} {id : RunId} {side : Side}

def bodies (id : RunId) (m : Moment) : Nat := calls (m.thread id .main).stack + calls (m.thread id .worker).stack

theorem bodies_eq (m : Moment) (id : RunId) (side : Side) :
    m.bodies id = calls (m.thread id side).stack + calls (m.thread id side.other).stack := by
  cases side with
  | main => rfl
  | worker => exact Nat.add_comm _ _

/-- The call depth counts the bodies, and stays within its limit; a limit below zero is as one of zero. -/
structure Counts (id : RunId) (m : Moment) : Prop where
  depth : (m.run id).callDepth = m.bodies id
  bound : (m.run id).callDepth ≤ (m.run id).limits.maxCallDepth.toNat

theorem Counts.acts (h : Counts id m) (hm : Possible m) (hid : id < m.size) (hacts : Acts id side m n) : Counts id n := by
  obtain ⟨hother, -⟩ := hacts.stride hm.sound
  obtain ⟨above, depth, hputs⟩ := hacts.puts hm
  have hlimits := (hacts.move.terms hm hid).limits
  have hleft := (m.thread id side).calls_base_le
  have hdepth := h.depth
  have hbound := h.bound
  have hbefore := hputs.before
  have hafter := hputs.after
  have hroom := hputs.room
  have hstack := congrArg calls hputs.stack
  rw [calls_append] at hstack
  rw [m.bodies_eq id side] at hdepth
  rw [hlimits] at hroom
  refine ⟨?_, ?_⟩
  · rw [n.bodies_eq id side, hother]
    omega
  · rw [hlimits]
    omega

theorem Counts.move (h : Counts id m) (hm : Possible m) (hid : id < m.size) (hn : Move m n) : Counts id n := by
  rcases hn.acts_or_same hm.sound hid with ⟨side, hacts⟩ | ⟨hsame, hthreads⟩
  · exact h.acts hm hid hacts
  · refine ⟨?_, ?_⟩
    · rw [hsame.callDepth, h.depth, bodies, bodies, hthreads, hthreads]
    · rw [hsame.callDepth, (hn.terms hm hid).limits]
      exact h.bound

theorem Possible.counts (hm : Possible m) (hid : id < m.size) : Counts id m := by
  refine hm.run_induction hid (fun hunbegun hthreads => ⟨?_, ?_⟩) fun hm hid hn h => h.move hm hid hn
  · rw [bodies, hthreads, hthreads, hunbegun.callDepth]
    rfl
  · rw [hunbegun.callDepth]
    exact Nat.zero_le _

/-- What a thread begins stays on top of `base` until it has an outcome there. -/
theorem Moves.above (hn : Moves m n) (hm : Possible m) (hid : id < m.size) (hbegins : (m.thread id side).Begins base) :
    base <:+ (n.thread id side).stack ∨ ∃ o, Moves m o ∧ Moves o n ∧ (o.thread id side).IsOver base := by
  induction hn with
  | refl => exact .inl (hbegins.stack ▸ List.suffix_refl _)
  | @move n o hmoves hn ih =>
    have hnp := hm.moves hmoves
    rcases ih with hsuffix | ⟨p, hp, hmore, hover⟩
    · by_cases hover : (n.thread id side).IsOver base
      · exact .inr ⟨n, hmoves, .move (.refl n) hn, hover⟩
      · refine .inl (hn.suffix hnp (Nat.lt_of_lt_of_le hid hmoves.size) hsuffix fun hstack => ?_)
        refine Bool.eq_false_iff.2 fun hgiven => hover ?_
        have hbase := hbegins.stacked (hm.sound.thread id side)
        exact Thread.isOver_of_given hbase (hnp.sound.thread id side) hstack hgiven
    · exact .inr ⟨p, hp, .move hmore hn, hover⟩

/-- Without handlers, the call depth depends on the stack of the main thread alone. -/
theorem Possible.callDepth_eq (hm : Possible m) (hid : id < m.size) (h : (m.run id).Handlerless)
    (hstack : (m.thread id side).stack ≠ []) : (m.run id).callDepth = calls (m.thread id side).stack := by
  have hbare := hm.worker_bare hid h
  cases side with
  | worker => exact absurd hbare hstack
  | main =>
    rw [(hm.counts hid).depth, bodies, hbare]
    rfl

/-- A thread that has all arguments of a call looks the function up with its next step. -/
theorem Move.invokes {name : String} {args : List Value} {rest : List Frame} (hn : Move m n) (hm : m.Sound)
    (hcalls : (m.thread id side).Calls name rest args) : n.At id side ((m.run id).invoke m.desk name args rest) := by
  have hinner : (m.thread id side).control.atRest = false := by
    generalize m.thread id side = t at hcalls
    cases hcalls <;> rfl
  refine (hn.inner hm hinner).of_eq ?_
  generalize m.thread id side = t at hcalls
  cases hcalls <;> rfl

theorem Move.called {name : String} {args : List Value} {f : Routine} {rest : List Frame} (hn : Move m n) (hm : m.Sound)
    (hcalls : (m.thread id side).Calls name rest args) (hf : (m.run id).functions.get? name = some f) :
    n.At id side ((m.run id).callRoutine m.desk f args rest) := by
  refine (hn.invokes hm hcalls).of_eq ?_
  unfold Run.invoke
  rw [hf]

/-- The body that exhausts the stack of the interpreter ends as its call does. -/
theorem Move.exhausted {name : String} {rest : List Frame} (hn : Move m n) (hm : m.Sound)
    (hthread : m.thread id side = ⟨.raised (.fault .stackExhausted), .call name :: rest⟩) :
    n.At id side (.fail { m.run id with callDepth := (m.run id).callDepth - 1 } m.desk (.stackDepth name) rest) := by
  have hinner : (m.thread id side).control.atRest = false := by
    rw [hthread]
    rfl
  refine (hn.inner hm hinner).of_eq ?_
  rw [hthread]
  rfl

end Moment

/-- In every interleaving, the call depth of a run is the number of bodies of functions that its main thread and its handler
are in, and never above the limit; a limit below zero is as one of zero. What a thread begins, an expression or a statement,
stays on its stack until it has an outcome there: a value, an ending with a signal or without, or an error. If the program
has no handlers, the call depth is then what it was. A call with an argument for each parameter is refused before its body
begins if as many bodies are running as the limit allows; otherwise its body begins, unless the stack of the interpreter has
no room for it. An exhausted stack ends the body that is running with an error of its call, and gives its depth back. When
the run has ended, the call depth is zero. -/
theorem calls_balanced {m : Moment} (hm : m.Possible) {id : RunId} (hid : id < m.size) :
    (m.run id).callDepth = m.bodies id ∧
    m.bodies id ≤ (m.run id).limits.maxCallDepth.toNat ∧
    (∀ side base, (m.thread id side).Begins base → ∀ n, m.Moves n →
      (base <:+ (n.thread id side).stack ∨ ∃ o, m.Moves o ∧ o.Moves n ∧ (o.thread id side).IsOver base) ∧
      ((m.run id).Handlerless → (n.thread id side).IsOver base → (n.run id).callDepth = (m.run id).callDepth)) ∧
    (∀ side name rest args f, (m.thread id side).Calls name rest args → (m.run id).functions.get? name = some f →
      args.length = f.params.length → ∀ n, m.Move n →
      (m.bodies id = (m.run id).limits.maxCallDepth.toNat →
        n.thread id side = ⟨.raised (.error { cause := .callDepth (m.run id).limits.maxCallDepth f.name }), rest⟩) ∧
      (m.bodies id ≠ (m.run id).limits.maxCallDepth.toNat → (m.run id).holds (.call f.name :: rest) = true →
        ∃ scope, n.thread id side = ⟨.statements f.body.statements scope, .call f.name :: rest⟩) ∧
      (m.bodies id ≠ (m.run id).limits.maxCallDepth.toNat → (m.run id).holds (.call f.name :: rest) = false →
        n.thread id side = ⟨.raised (.fault .stackExhausted), rest⟩)) ∧
    (∀ side name rest, m.thread id side = ⟨.raised (.fault .stackExhausted), .call name :: rest⟩ → ∀ n, m.Move n →
      n.thread id side = ⟨.raised (.error { cause := .stackDepth name }), rest⟩ ∧
      (n.run id).callDepth = (m.run id).callDepth - 1) ∧
    ((m.run id).program.isSome = true → (m.run id).ending.isSome = true → (m.run id).callDepth = 0) := by
  obtain ⟨hdepth, hbound⟩ := hm.counts hid
  refine ⟨hdepth, hdepth ▸ hbound, ?_, ?_, ?_, ?_⟩
  · intro side base hbegins n hn
    refine ⟨hn.above hm hid hbegins, fun hnone hover => ?_⟩
    have hidn := Nat.lt_of_lt_of_le hid hn.size
    have hnone' : (n.run id).Handlerless := fun p hp => hnone p ((hn.terms hm hid).program.symm.trans hp)
    have hne : base ≠ [] := by
      rintro rfl
      rcases hbegins.stacked (hm.sound.thread id side) with hs | hs <;> exact hs
    have hbefore := hm.callDepth_eq hid hnone (by rwa [hbegins.stack])
    have hafter := (hm.moves hn).callDepth_eq hidn hnone' (by rwa [hover.1])
    rw [hafter, hbefore, hover.1, hbegins.stack]
  · intro side name rest args f hcalls hf harity n hn
    rw [(hn.called hm.sound hcalls hf).thread]
    unfold Run.callRoutine
    rw [if_neg (not_not_intro harity)]
    refine ⟨fun hfull => ?_, fun hroom hholds => ?_, fun hroom hexhausted => ?_⟩
    · rw [if_pos (by omega)]
      rfl
    · rw [if_neg (by omega), if_pos hholds]
      exact ⟨_, rfl⟩
    · rw [if_neg (by omega), if_neg (Bool.eq_false_iff.1 hexhausted)]
      rfl
  · intro side name rest hthread n hn
    have hat := hn.exhausted hm.sound hthread
    exact ⟨hat.thread, congrArg Run.callDepth hat.run⟩
  · intro hprogram hended
    rw [hdepth, Moment.bodies, hm.finished_of_ended hid hprogram hended, hm.finished_of_ended hid hprogram hended]
    rfl

namespace Sinking

/-- The tokens of `def f() {call f}` and `call f`, without places. -/
def tokens : List Token :=
  [(Content.keyword .define, "def"), (.word, "f"), (.symbol .leftParen, "("), (.symbol .rightParen, ")"),
    (.symbol .leftBrace, "\x7b"), (.keyword .call, "call"), (.word, "f"), (.symbol .rightBrace, "\x7d"),
    (.keyword .call, "call"), (.word, "f"), (.finish, "")].map fun (content, lexeme) => ⟨content, lexeme, default⟩

def again : Stmt := .evaluate default (.call default "f" [])

def body : Block Stmt := ⟨default, [again]⟩

def program : Program := ⟨default, [.define default "f" [] body, again], #[]⟩

def world : World := ({} : World).launch "script" program { maxCallDepth := 1 } 0 {} .root

theorem world_reachable : (Moment.resting world).Reachable :=
  Moment.launched_reachable tokens rfl (by simp)

def begun : Moment := (Moment.resting world).after 12

def deep : Moment := begun.after 7

def failed : Moment := begun.after 13

theorem begun_possible : begun.Possible := (Moment.after_reachable world_reachable 12).possible

def below : List Frame := [.located default, .following [] 0, .program]

theorem begun_thread : begun.thread 0 .main = ⟨.perform again 0, below⟩ := rfl

def above : List Frame := [.discard, .located default, .following [] 1, .call "f", .discard]

theorem deep_thread : deep.thread 0 .main = ⟨.evaluate (.call default "f" []) 1, above ++ below⟩ := rfl

theorem failed_thread : (failed.thread 0 .main).IsOver below := ⟨rfl, rfl⟩

/-- The program where the stack of the interpreter has room for six frames. -/
def narrow : World :=
  ({ holds := fun frames => frames.length ≤ 6 } : World).launch "script" program {} 0 {} .root

theorem narrow_reachable : (Moment.resting narrow).Reachable :=
  Moment.launched_reachable tokens rfl (by simp)

def exhausted : Moment := (Moment.resting narrow).after 17

theorem exhausted_possible : exhausted.Possible := (Moment.after_reachable narrow_reachable 17).possible

end Sinking

/-- The second call of the function is refused, and when the first has failed, the call depth is zero again. So it is when
the first has exhausted the stack. -/
theorem calls_balanced_sinking : Sinking.begun.Possible ∧ 0 < Sinking.begun.size ∧ (Sinking.begun.run 0).callDepth = 0 ∧
    Sinking.deep.bodies 0 = 1 ∧ (∀ n, Sinking.deep.Move n → n.thread 0 .main =
      ⟨.raised (.error { cause := .callDepth 1 "f" }), Sinking.above ++ Sinking.below⟩) ∧
    (Sinking.failed.thread 0 .main).IsOver Sinking.below ∧ (Sinking.failed.run 0).callDepth = 0 ∧
    Sinking.exhausted.bodies 0 = 1 ∧ ∀ n, Sinking.exhausted.Move n → n.thread 0 .main =
      ⟨.raised (.error { cause := .stackDepth "f" }), .discard :: Sinking.below⟩ ∧ (n.run 0).callDepth = 0 := by
  have hsize : 0 < Sinking.begun.size := by decide +kernel
  have hmoves := Sinking.begun.moves_after 13
  obtain ⟨-, -, hends, -⟩ := calls_balanced Sinking.begun_possible hsize
  have hdeep := Sinking.begun.moves_after 7
  obtain ⟨-, -, -, hrefused, -⟩ :=
    calls_balanced (Sinking.begun_possible.moves hdeep) (Nat.lt_of_lt_of_le hsize hdeep.size)
  obtain ⟨-, -, -, -, hexhausted, -⟩ :=
    @calls_balanced Sinking.exhausted Sinking.exhausted_possible 0 (by decide +kernel)
  have hnone : (Sinking.begun.run 0).Handlerless := by
    intro p hp
    obtain rfl : Sinking.program = p := Option.some.inj hp
    decide
  refine ⟨Sinking.begun_possible, hsize, rfl, rfl, fun n hn => ?_, Sinking.failed_thread, ?_, rfl, ?_⟩
  · have hcalls : (Sinking.deep.thread 0 .main).Calls "f" (Sinking.above ++ Sinking.below) [] :=
      Sinking.deep_thread ▸ .bare default 1
    exact (hrefused .main "f" _ [] ⟨"f", [], Sinking.body, 0⟩ hcalls rfl rfl n hn).1 rfl
  · have hbegins : (Sinking.begun.thread 0 .main).Begins Sinking.below := Sinking.begun_thread ▸ .statement _ _
    exact (hends .main Sinking.below hbegins Sinking.failed hmoves).2 hnone Sinking.failed_thread
  · exact hexhausted .main "f" (.discard :: Sinking.below) rfl

end DeskScript
