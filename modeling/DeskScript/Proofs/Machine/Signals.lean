import DeskScript.Proofs.Machine.Settled

set_option autoImplicit false

/-!
# Break and continue stay in their loop

The frame of a program, of a call or of a handler sees its body end normally or with `back`, never with `leave` or
`skip`: those two stand only above the turn of a loop of the same body.
-/

namespace DeskScript

def Frame.isBase : Frame → Bool
  | .program | .call _ | .handler => true
  | _ => false

theorem loopAround_of_isBase {frame : Frame} (h : frame.isBase = true) (stack : List Frame) :
    loopAround (frame :: stack) = false := by
  cases frame <;> first | rfl | cases h

theorem not_seeksLoop {signal : Option Signal} (h : Signal.seeksLoop signal ≠ true) :
    signal = none ∨ ∃ v, signal = some (.back v) := by
  match signal with
  | none => exact .inl rfl
  | some (.back v) => exact .inr ⟨v, rfl⟩
  | some .leave => exact absurd rfl h
  | some .skip => exact absurd rfl h

/-- In a parsed script every `leave` and `skip` lies in a loop of its own function, handler or main body; and whenever such
a body ends, it ends normally or with `back`. -/
theorem bodies_confine_signals :
    (∀ (tokens : List Token) (source : Option String) (program : Program),
      parseTokens tokens source = .ok program → ∀ s ∈ program.statements, s.confined false = true) ∧
    ∀ (m : Moment), m.Reachable → ∀ (id : RunId) (side : Side) (signal : Option Signal) (frame : Frame)
      (stack : List Frame), m.thread id side = ⟨.ended signal, frame :: stack⟩ → frame.isBase = true →
      signal = none ∨ ∃ v, signal = some (.back v) := by
  constructor
  · intro tokens source program hparse s hs
    have hall := parseTokens_confined hparse
    rw [Stmt.allConfined_eq_all, List.all_eq_true] at hall
    exact hall s hs
  · intro m hm id side signal frame stack hthread hbase
    have hfits := hm.sound.thread id side
    rw [hthread] at hfits
    obtain ⟨-, hloop⟩ := hfits
    apply not_seeksLoop
    intro hseeks
    rw [loopAround_of_isBase hbase] at hloop
    exact Bool.false_ne_true (hloop hseeks)

/-- The tokens of `loop 2 {break}`, without places. -/
def breakTokens : List Token :=
  [.keyword .loop, .number 2, .symbol .leftBrace, .keyword .breakWord, .symbol .rightBrace, .finish].map
    fun content => ⟨content, "", default⟩

def breakProgram : Program :=
  ⟨default, [.counted default ⟨default, [.leave default]⟩ (.literal default (.number 2))], #[]⟩

def breakMoment (steps : Nat) : Moment :=
  let w := ({} : World).launch "script" breakProgram {} 0 {} .root
  .within ((w.dequeued {}).setRun 0 default) 0 .main
    (Run.slice .main steps ((w.run 0).firstStep (w.dequeued {}).desk .main))

theorem breakMoment_reachable (steps : Nat) : (breakMoment steps).Reachable := by
  refine Moment.Reachable.steps ?_ (Moment.steps_slice _ 0 .main steps _)
  refine Moment.Reachable.next (Moment.Reachable.next (.fresh {} {} (fun _ => true) (by simp)) (.driven ?_)) (.thread rfl)
  exact @World.Driven.launch _ "script" breakTokens none breakProgram rfl {} 0 {} .root

theorem bodies_confine_signals_break :
    parseTokens breakTokens none = .ok breakProgram ∧ (∀ s ∈ breakProgram.statements, s.confined false = true) ∧
    ((breakMoment 15).thread 0 .main).control = .ended (some .leave) ∧
    (breakMoment 21).Reachable ∧ (breakMoment 21).thread 0 .main = ⟨.ended none, [.program]⟩ ∧
    ((none : Option Signal) = none ∨ ∃ v, (none : Option Signal) = some (.back v)) :=
  ⟨rfl, bodies_confine_signals.1 breakTokens none breakProgram rfl, rfl, breakMoment_reachable 21, rfl,
    bodies_confine_signals.2 (breakMoment 21) (breakMoment_reachable 21) 0 .main none .program [] rfl rfl⟩

end DeskScript
