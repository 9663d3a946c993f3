import DeskScript.Proofs.Machine.Exclusion

set_option autoImplicit false

/-!
# What a handler can see of the main thread

A handler that yields lets the main thread move, while the governor's flag is down. The main thread begins no statement
then. If it waited at a checkpoint when the handler went on, its steps cannot be seen by the script: `handlers_run_alone`.
If it was within a statement, suspended on a collaborator, it finishes that statement between those of the handler:
`confirm_meddles`.
-/

namespace DeskScript

/-- What a script can see is as it was: bindings, arrays and objects, functions, output, and the host. -/
structure Run.Unseen (r : Run) (d : Desk) (r' : Run) (d' : Desk) : Prop where
  scopes : r'.scopes = r.scopes
  heap : r'.heap = r.heap
  functions : r'.functions = r.functions
  output : r'.output = r.output
  host : d'.host = d.host

def Raised.catchable : Raised → Bool
  | .error e => e.cause.category.catchable
  | .abort _ | .fault _ | .interrupted => false

/-- Whether it leaves every body as it is: no block catches it, and no call makes another error of it. -/
def Raised.passes : Raised → Bool
  | .error e => !e.cause.category.catchable
  | .fault f => f ≠ .stackExhausted
  | .abort _ | .interrupted => true

theorem Raised.uncaught_of_passes {e : Raised} (h : e.passes = true) : e.catchable = false := by
  cases e with
  | error e => exact (Bool.not_eq_true' _).mp h
  | abort | fault | interrupted => rfl

/-- A main thread that does not go on with its program while a handler is busy: it is not in the body of the program, or
has not yet begun its first statement, or waits at a checkpoint, or leaves the body with an error that is never caught. -/
inductive Thread.Paused : Thread → Prop
  | outside {t : Thread} (h : ¬InBody t.stack) : Paused t
  | fresh (stmts : List Stmt) (scope : ScopeId) : Paused ⟨.statements stmts scope, [.program]⟩
  | spent {t : Thread} (h : t.BodyOver) : Paused t
  | checkpoint (stack : List Frame) : Paused ⟨.checkpoint, stack⟩
  | recheck (stack : List Frame) : Paused ⟨.recheck, stack⟩
  | held {t : Thread} {stack : List Frame} (h : t.HeldAt stack) : Paused t
  | leaving {e : Raised} (h : e.catchable = false) (stack : List Frame) : Paused ⟨.raised e, stack⟩

namespace Run

variable {r : Run} {d : Desk} {t : Thread} {stack : List Frame}

theorem objection_passes {now : Time} {e : Raised} (h : r.objection? now = some e) : e.passes = true := by
  unfold objection? at h
  split at h
  · cases h
    rfl
  · split at h
    · cases h
      rfl
    · split at h
      · cases h
        rfl
      · cases h

theorem interruption_passes (r : Run) : r.interruption.passes = true := by
  unfold interruption
  split
  · rfl
  · split <;> rfl

theorem locate_cause (r : Run) (span : Span) (e : ScriptError) : (r.locate span e).cause = e.cause := by
  unfold locate
  split
  · rfl
  · exact ScriptError.locate_cause e span _

theorem checkpoint_paused (r : Run) (d : Desk) (stack : List Frame) :
    (r.checkpoint d stack).thread.Paused ∧ r.Unseen d (r.checkpoint d stack).run (r.checkpoint d stack).desk := by
  unfold checkpoint
  split
  · rename_i hobjection
    exact ⟨.leaving (Raised.uncaught_of_passes (objection_passes hobjection)) stack, ⟨rfl, rfl, rfl, rfl, rfl⟩⟩
  · dsimp only
    split
    · exact ⟨.leaving rfl stack, ⟨rfl, rfl, rfl, rfl, rfl⟩⟩
    · exact ⟨.recheck stack, ⟨rfl, rfl, rfl, rfl, rfl⟩⟩
    · exact ⟨.held .clear, ⟨rfl, rfl, rfl, rfl, rfl⟩⟩

theorem recheck_paused (r : Run) (d : Desk) (stack : List Frame) :
    (r.recheck d stack).thread.Paused ∧ r.Unseen d (r.recheck d stack).run (r.recheck d stack).desk := by
  unfold recheck
  split
  · rename_i hobjection
    exact ⟨.leaving (Raised.uncaught_of_passes (objection_passes hobjection)) stack, ⟨rfl, rfl, rfl, rfl, rfl⟩⟩
  · exact ⟨.held .clear, ⟨rfl, rfl, rfl, rfl, rfl⟩⟩

theorem held_paused (hheld : t.HeldAt stack) (hbusy : r.governor.idle = false) :
    (step .main r d t).thread.Paused ∧ r.Unseen d (step .main r d t).run (step .main r d t).desk := by
  cases hheld with
  | clear =>
    have hwait : ¬r.isClear .main = true := by simp [isClear, hbusy]
    simp only [step, waitClear, if_neg hwait]
    exact ⟨.held .request, ⟨rfl, rfl, rfl, rfl, rfl⟩⟩
  | request =>
    simp only [step, request]
    split
    · rename_i hobjection
      exact ⟨.leaving (Raised.uncaught_of_passes (objection_passes hobjection)) _, ⟨rfl, rfl, rfl, rfl, rfl⟩⟩
    · exact ⟨.held (.resume _ _), ⟨rfl, rfl, rfl, rfl, rfl⟩⟩
  | resume id releases =>
    simp only [step, resume]
    split
    · exact ⟨.leaving (Raised.uncaught_of_passes (interruption_passes _)) _, ⟨rfl, rfl, rfl, rfl, rfl⟩⟩
    · split
      · exact ⟨.leaving (Raised.uncaught_of_passes (interruption_passes _)) _, ⟨rfl, rfl, rfl, rfl, rfl⟩⟩
      · exact ⟨.held (.replied _), ⟨rfl, rfl, rfl, rfl, rfl⟩⟩
      · exact ⟨.leaving (Raised.uncaught_of_passes (interruption_passes _)) _, ⟨rfl, rfl, rfl, rfl, rfl⟩⟩
  | replied result => exact ⟨.held .clear, ⟨rfl, rfl, rfl, rfl, rfl⟩⟩

theorem unwind_paused {e : Raised} (hcaught : e.catchable = false) {frame : Frame} (hground : frame.isGround = false)
    (r : Run) (d : Desk) (stack : List Frame) :
    (r.unwind d e stack frame).thread.Paused ∧
      r.Unseen d (r.unwind d e stack frame).run (r.unwind d e stack frame).desk := by
  have hraise {e : Raised} (hcaught : e.catchable = false) :
      (Step.raise r d e stack).thread.Paused ∧ r.Unseen d (Step.raise r d e stack).run (Step.raise r d e stack).desk :=
    ⟨.leaving hcaught stack, ⟨rfl, rfl, rfl, rfl, rfl⟩⟩
  unfold unwind
  split
  · split
    · refine hraise ?_
      rw [Raised.catchable, locate_cause]
      exact hcaught
    · exact hraise rfl
    · exact hraise hcaught
  · split
    · rename_i e
      have hnot : ¬e.cause.category.catchable = true := Bool.eq_false_iff.1 hcaught
      rw [if_neg hnot]
      exact hraise hcaught
    · exact hraise hcaught
  · dsimp only
    split
    · exact ⟨.leaving rfl stack, ⟨rfl, rfl, rfl, rfl, rfl⟩⟩
    · exact ⟨.leaving hcaught stack, ⟨rfl, rfl, rfl, rfl, rfl⟩⟩
  · cases hground
  · cases hground
  · cases hground
  · exact hraise hcaught

theorem outside_paused (hfits : t.Fits) (hsided : t.Sided .main) (hout : ¬InBody t.stack) :
    (step .main r d t).thread.Paused := by
  have hempty : ¬InBody [] := fun h => h.ne_nil rfl
  cases hsided.turn hfits with
  | computes hcomputes =>
    -- No frame of a program comes to lie on a stack that has none.
    refine .outside fun hin => ?_
    have hframes := (@step_calm .main r d t hcomputes).frames
    have hmem : .program ∈ t.stack ∨ .handler ∈ t.stack := by
      rcases hin with hlast | hlast
      · exact .inl ((hframes _ (List.mem_of_getLast? hlast)).resolve_right nofun)
      · exact .inr ((hframes _ (List.mem_of_getLast? hlast)).resolve_right nofun)
    obtain ⟨hne, -⟩ := hfits.of_computes hcomputes
    obtain ⟨need, hstacked⟩ := hfits.stacked hne
    rcases hmem with hmem | hmem
    · exact hout (.inl (hstacked.ground hmem rfl))
    · exact hout (.inr (hstacked.ground hmem rfl))
  | checkpoint stack => exact (r.checkpoint_paused d stack).1
  | request work stack =>
    simp only [step, request]
    split
    · exact .outside hout
    · exact .outside hout
  | resume service stack =>
    simp only [step, resume]
    split
    · exact .outside hout
    · split <;> exact .outside hout
  | ran signal => exact absurd (.inl rfl) hout
  | stopped e hframe =>
    rcases hframe with rfl | ⟨v, rfl⟩
    · exact .outside hempty
    · exact .outside hempty
  | joined result v =>
    simp only [step, reply]
    split <;> exact .outside hempty
  | start => exact .fresh _ 0
  | settle ending => exact .outside hempty
  | finished => exact .outside hempty

theorem over_paused (hsided : t.Sided .main) (hover : t.BodyOver) : (step .main r d t).thread.Paused := by
  obtain ⟨control, stack⟩ := t
  obtain ⟨hstack, hcontrol⟩ := hover
  obtain rfl : stack = [.program] := by
    refine hstack.resolve_right ?_
    rintro rfl
    exact absurd (hsided.frames .handler List.mem_cons_self) nofun
  refine .outside ?_
  rcases hcontrol with ⟨signal, rfl⟩ | ⟨e, rfl⟩
  · rintro (hlast | hlast) <;> cases hlast
  · exact fun hin => hin.ne_nil rfl

/-- A main thread that is paused while a handler is busy stays so, and the script sees nothing of its steps. -/
theorem step_paused (hfits : t.Fits) (hsided : t.Sided .main) (h : t.Paused) (hbusy : r.governor.idle = false) :
    (step .main r d t).thread.Paused ∧
      (InBody t.stack → ¬t.BodyOver → r.Unseen d (step .main r d t).run (step .main r d t).desk) := by
  cases h with
  | outside hout => exact ⟨outside_paused hfits hsided hout, fun hin => absurd hin hout⟩
  | fresh stmts scope =>
    cases stmts with
    | nil => exact ⟨.spent ⟨.inl rfl, .inl ⟨none, rfl⟩⟩, fun _ _ => ⟨rfl, rfl, rfl, rfl, rfl⟩⟩
    | cons s rest =>
      simp only [step, descend]
      split
      · exact ⟨.checkpoint _, fun _ _ => ⟨rfl, rfl, rfl, rfl, rfl⟩⟩
      · exact ⟨.leaving rfl _, fun _ _ => ⟨rfl, rfl, rfl, rfl, rfl⟩⟩
  | spent hover => exact ⟨over_paused hsided hover, fun _ hnot => absurd hover hnot⟩
  | checkpoint stack =>
    obtain ⟨hpaused, hunseen⟩ := r.checkpoint_paused d stack
    exact ⟨hpaused, fun _ _ => hunseen⟩
  | recheck stack =>
    obtain ⟨hpaused, hunseen⟩ := r.recheck_paused d stack
    exact ⟨hpaused, fun _ _ => hunseen⟩
  | held hheld =>
    obtain ⟨hpaused, hunseen⟩ := @held_paused r d t _ hheld hbusy
    exact ⟨hpaused, fun _ _ => hunseen⟩
  | @leaving e hcaught stack =>
    cases hsided.turn hfits with
    | computes hcomputes =>
      cases stack with
      | nil => cases hcomputes
      | cons frame rest =>
        obtain ⟨hpaused, hunseen⟩ := unwind_paused hcaught (Bool.not_eq_true' _ ▸ hcomputes) r d rest
        exact ⟨hpaused, fun _ _ => hunseen⟩
    | stopped _ hframe =>
      rcases hframe with rfl | ⟨v, rfl⟩
      · have hover : Thread.BodyOver ⟨.raised e, [.program]⟩ := ⟨.inl rfl, .inr ⟨e, rfl⟩⟩
        exact ⟨over_paused hsided hover, fun _ hnot => absurd hover hnot⟩
      · have hout : ¬InBody [.closing v] := by
          rintro (hlast | hlast) <;> cases hlast
        exact ⟨outside_paused hfits hsided hout, fun hin => absurd hin hout⟩

end Run

namespace Moment

variable {m n o : Moment} {id : RunId}

/-- Moves throughout which a handler of the run is active and not suspended. -/
inductive Busily (id : RunId) (m : Moment) : Moment → Prop
  | refl (hbusy : (m.run id).governor.idle = false) : Busily id m m
  | move {n o : Moment} (h : Busily id m n) (hn : Move n o) (hbusy : (o.run id).governor.idle = false) : Busily id m o

theorem Busily.busy (h : Busily id m n) : (n.run id).governor.idle = false := by
  cases h with
  | refl hbusy => exact hbusy
  | move _ _ hbusy => exact hbusy

theorem Busily.moves (h : Busily id m n) : Moves m n := by
  induction h with
  | refl _ => exact .refl _
  | move _ hn _ ih => exact ih.move hn

/-- A main thread at rest that is not suspended on a collaborator is paused. -/
theorem paused_of_rest {t : Thread} (hfits : t.Fits) (hrest : t.control.atRest = true) (hsuspended : t.isSuspended = false) :
    t.Paused := by
  obtain ⟨control, stack⟩ := t
  have hempty (hempty : stack = []) : Thread.Paused ⟨control, stack⟩ := by
    subst hempty
    exact .outside fun hin => hin.ne_nil rfl
  cases control with
  | recheck => exact .recheck stack
  | resume service releases =>
    cases stack with
    | nil => exact hfits.elim
    | cons frame rest =>
      obtain ⟨hneed, -, hbelow⟩ := hfits
      cases frame with
      | clearing => exact .held (.resume service releases)
      | closing v =>
        obtain rfl : rest = [] := hbelow
        refine .outside ?_
        rintro (hlast | hlast) <;> cases hlast
      | collaborator | requested => cases hsuspended
      | _ => cases hneed
  | start | receive | settle | finished => exact hempty hfits
  | _ => cases hrest

theorem Paused.not_suspended {t : Thread} (h : t.Paused) (hfits : t.Fits) : t.isSuspended = false := by
  cases h with
  | outside hout =>
    obtain ⟨control, stack⟩ := t
    rcases Step.fits_cases hfits with hin | ⟨v, rfl⟩ | ⟨rfl, -⟩
    · exact absurd hin hout
    · cases control <;> rfl
    · cases control <;> rfl
  | spent hover =>
    obtain ⟨control, stack⟩ := t
    rcases hover with ⟨-, ⟨signal, rfl⟩ | ⟨e, rfl⟩⟩ <;> rfl
  | held hheld => cases hheld <;> rfl
  | fresh | checkpoint | recheck | leaving => rfl

theorem Busily.paused (h : Busily id m n) (hm : Possible m) (hid : id < m.size) (hpaused : (m.thread id .main).Paused) :
    (n.thread id .main).Paused := by
  induction h with
  | refl _ => exact hpaused
  | @move n o h hn hbusy ih =>
    have hpossible : Possible n := hm.moves h.moves
    have hsize : id < n.size := Nat.lt_of_lt_of_le hid h.moves.size
    cases hn.share hpossible.sound hsize with
    | step side ready hacts hat hother =>
      cases side with
      | main =>
        rw [hat.thread]
        exact (Run.step_paused (hpossible.sound.thread id .main) (hpossible.attended.sided hsize .main) ih h.busy).1
      | worker =>
        rw [show o.thread id .main = n.thread id .main from hother]
        exact ih
    | interrupted _ _ _ _ hother =>
      rw [hother]
      exact ih
    | rested _ _ _ _ _ hthreads | served _ _ _ _ _ hthreads | cancelled _ _ _ hthreads | aside _ hthreads =>
      rw [hthreads]
      exact ih

end Moment

/-- From a step of a handler until the handler ends or is suspended, whatever yields there are: the main thread is given
no leave to begin a statement; and unless it was within one, suspended on a collaborator, it asks no collaborator, and the
script sees nothing of what it does in the body of its program. -/
theorem handlers_run_alone {l m n : Moment} (hl : l.Possible) {id : RunId} (hid : id < l.size)
    (hacts : Moment.Acts id .worker l m) (hbusy : Moment.Busily id m n) :
    (n.thread id .main).control ≠ .passed ∧
    ((m.thread id .main).isSuspended = false → (n.thread id .main).isSuspended = false ∧
      ∀ o, Moment.Acts id .main n o → InBody (n.thread id .main).stack → ¬(n.thread id .main).BodyOver →
        (n.run id).Unseen n.desk (o.run id) o.desk) := by
  have hm : m.Possible := hl.move hacts.move
  have hn : n.Possible := hm.moves hbusy.moves
  have hidm : id < m.size := Nat.lt_of_lt_of_le hid hacts.move.size
  have hidn : id < n.size := Nat.lt_of_lt_of_le hidm hbusy.moves.size
  constructor
  · intro hpassed
    have hup := (hn.guarded hidn).passed hpassed
    rw [hbusy.busy] at hup
    cases hup
  · intro hsuspended
    have hrest : (m.thread id .main).control.atRest = true := hacts.other_at_rest hm.sound
    have hpaused := hbusy.paused hm hidm (Moment.paused_of_rest (hm.sound.thread id .main) hrest hsuspended)
    have hfits := hn.sound.thread id .main
    refine ⟨Moment.Paused.not_suspended hpaused hfits, fun o hmain hin hover => ?_⟩
    obtain ⟨-, ready, -, hat | ⟨hside, -⟩⟩ := hmain.stride hn.sound
    case inr =>
      cases hside
    have hunseen := (@Run.step_paused (n.run id) { n.desk with ready } _ hfits (hn.attended.sided hidn .main) hpaused
      hbusy.busy).2 hin hover
    rw [hat.run, hat.desk]
    exact ⟨hunseen.scopes, hunseen.heap, hunseen.functions, hunseen.output, hunseen.host⟩

namespace Moment

theorem busily_after {m : Moment} {id : RunId} {i k : Nat}
    (h : ∀ j < k + 1, ((m.after (i + j)).run id).governor.idle = false) : Busily id (m.after i) (m.after (i + k)) := by
  induction k with
  | zero => exact .refl (h 0 Nat.one_pos)
  | succ k ih =>
    have hlater : Busily id (m.after i) (m.after (i + k)) := ih fun j hj => h j (Nat.lt_succ_of_lt hj)
    exact hlater.move (.next (follow_next _)) (h (k + 1) (Nat.lt_succ_self _))

end Moment

def Thread.isUnderWay (t : Thread) : Bool :=
  match t.stack.getLast?, t.control with
  | _, .ended _ | _, .raised _ => false
  | some .program, _ => true
  | _, _ => false

theorem Thread.inBody_of_isUnderWay {t : Thread} (h : t.isUnderWay = true) : InBody t.stack ∧ ¬t.BodyOver := by
  unfold isUnderWay at h
  split at h
  · cases h
  · cases h
  · rename_i hlast hended hraised
    refine ⟨.inl hlast, ?_⟩
    rintro ⟨-, ⟨signal, hcontrol⟩ | ⟨e, hcontrol⟩⟩
    · exact hended signal hcontrol
    · exact hraised e hcontrol
  · cases h

namespace Again

def moment (k : Nat) : Moment := (Moment.resting world).after k

theorem moment_possible (k : Nat) : (moment k).Possible := by
  have hreachable := Moment.after_reachable world_reachable k
  exact hreachable.possible

theorem moment_busily : Moment.Busily 0 (moment 30) (moment (30 + 4)) :=
  Moment.busily_after (by decide +kernel)

end Again

/-- The handler of this program yields, and the main thread looks at the flag without being seen. -/
theorem handlers_run_alone_again : (Again.moment 29).Possible ∧ 0 < (Again.moment 29).size ∧
    Moment.Acts 0 .worker (Again.moment 29) (Again.moment 30) ∧ Moment.Busily 0 (Again.moment 30) (Again.moment 34) ∧
    Moment.Acts 0 .main (Again.moment 34) (Again.moment 35) ∧ InBody ((Again.moment 34).thread 0 .main).stack ∧
    ((Again.moment 34).run 0).Unseen (Again.moment 34).desk ((Again.moment 35).run 0) (Again.moment 35).desk := by
  have hsize : 0 < (Again.moment 29).size := by decide +kernel
  have hworker : Moment.Acts 0 .worker (Again.moment 29) (Again.moment 30) := Moment.follow_acts (by decide +kernel)
  have hmain : Moment.Acts 0 .main (Again.moment 34) (Again.moment 35) := Moment.follow_acts (by decide +kernel)
  obtain ⟨hin, hover⟩ := Thread.inBody_of_isUnderWay (t := (Again.moment 34).thread 0 .main) (by decide +kernel)
  have halone := (handlers_run_alone (Again.moment_possible 29) hsize hworker Again.moment_busily).2 (by decide +kernel)
  exact ⟨Again.moment_possible 29, hsize, hworker, Again.moment_busily, hmain, hin, halone.2 _ hmain hin hover⟩

namespace Meddling

/-- The tokens of `set $x = "a"`, twice, `on "t" {print $x}` with three such statements, `emit "t"` and
`confirm "?" into $x`, without places. -/
def tokens : List Token :=
  [.keyword .set, .var "x", .symbol .assign, .text "a", .newline, .keyword .set, .var "x", .symbol .assign, .text "a",
    .newline, .keyword .on, .text "t", .symbol .leftBrace, .keyword .print, .var "x", .newline, .keyword .print, .var "x",
    .newline, .keyword .print, .var "x", .symbol .rightBrace, .newline, .keyword .emit, .text "t", .newline,
    .keyword .confirm, .text "?", .keyword .into, .var "x", .finish].map fun content => ⟨content, "", default⟩

def assign : Stmt := .assign default (.var default "x") (.literal default (.text "a"))

def print : Stmt := .print default (.var default "x")

def confirm : Stmt := .command default (.confirm (.literal default (.text "?")) "x")

def program : Program :=
  ⟨default, [assign, assign, .on default Again.event ⟨default, [print, print, print]⟩, Again.emit, confirm], #[]⟩

def world : World := ({} : World).launch "script" program { yieldInterval := 2 } 0 {} .root

theorem world_reachable : (Moment.resting world).Reachable :=
  Moment.launched_reachable tokens rfl (by simp)

def moment (k : Nat) : Moment := (Moment.resting world).after k

theorem moment_possible (k : Nat) : (moment k).Possible := by
  have hreachable := Moment.after_reachable world_reachable k
  exact hreachable.possible

def isConfirmed (r : Run) : Bool :=
  match r.scopes.lookup? 0 "x" with
  | some (.bool b) => b
  | _ => false

theorem moment_busily : Moment.Busily 0 (moment 54) (moment (54 + 25)) := Moment.busily_after (by decide +kernel)

end Meddling

/-- The handler of this program starts with the first of these moves, and is active and not suspended throughout; the last
one is the main thread's, which binds a variable anew. -/
theorem confirm_meddles : (Meddling.moment 53).Possible ∧ 0 < (Meddling.moment 53).size ∧
    Moment.Acts 0 .worker (Meddling.moment 53) (Meddling.moment 54) ∧
    ((Meddling.moment 53).thread 0 .worker).stack.length = 0 ∧
    Moment.Busily 0 (Meddling.moment 54) (Meddling.moment 79) ∧
    Moment.Acts 0 .main (Meddling.moment 79) (Meddling.moment 80) ∧
    (InBody ((Meddling.moment 79).thread 0 .main).stack ∧ ¬((Meddling.moment 79).thread 0 .main).BodyOver) ∧
    ¬((Meddling.moment 79).run 0).Unseen (Meddling.moment 79).desk ((Meddling.moment 80).run 0) (Meddling.moment 80).desk := by
  have hsize : 0 < (Meddling.moment 53).size := by decide +kernel
  have hworker : Moment.Acts 0 .worker (Meddling.moment 53) (Meddling.moment 54) := Moment.follow_acts (by decide +kernel)
  have hmain : Moment.Acts 0 .main (Meddling.moment 79) (Meddling.moment 80) := Moment.follow_acts (by decide +kernel)
  have hbody := Thread.inBody_of_isUnderWay (t := (Meddling.moment 79).thread 0 .main) (by decide +kernel)
  have hempty : ((Meddling.moment 53).thread 0 .worker).stack.length = 0 := by decide +kernel
  refine ⟨Meddling.moment_possible 53, hsize, hworker, hempty, Meddling.moment_busily, hmain, hbody, fun hunseen => ?_⟩
  have hbefore : Meddling.isConfirmed ((Meddling.moment 79).run 0) = false := by decide +kernel
  have hafter : Meddling.isConfirmed ((Meddling.moment 80).run 0) = true := by decide +kernel
  rw [Meddling.isConfirmed, hunseen.scopes, ← Meddling.isConfirmed, hbefore] at hafter
  cases hafter

end DeskScript
