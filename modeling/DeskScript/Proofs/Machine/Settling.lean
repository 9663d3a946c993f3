import DeskScript.Proofs.Machine.Joining

set_option autoImplicit false

/-!
# How a run settles

The main thread closes its run and then waits for the worker. How the run ends is decided when it closes: from then on the
moves lead to that ending and to no other. Cancellation and the failure of a handler are never taken back. What holds when
a run has closed, and is kept by every move, holds until the end: `Possible.over_induction`.
-/

namespace DeskScript

/-- A run that was cancelled stays so; of several failures the first one counts, and none that comes after cancellation. -/
structure Governor.Firm (g g' : Governor) : Prop where
  cancelled : g.cancelled = true → g'.cancelled = true
  aborted : ∀ e, g.aborted = some e → g'.aborted = some e
  unmoved : g.cancelled = true → g'.aborted = g.aborted

namespace Governor.Firm

variable {g g' g'' : Governor}

theorem of_eq (hcancelled : g'.cancelled = g.cancelled) (haborted : g'.aborted = g.aborted) : g.Firm g' :=
  ⟨fun h => hcancelled.trans h, fun _ h => haborted.trans h, fun _ => haborted⟩

theorem trans (h : g.Firm g') (h' : g'.Firm g'') : g.Firm g'' :=
  ⟨fun hcancelled => h'.cancelled (h.cancelled hcancelled), fun e haborted => h'.aborted e (h.aborted e haborted),
    fun hcancelled => (h'.unmoved (h.cancelled hcancelled)).trans (h.unmoved hcancelled)⟩

theorem aborted_ne (h : g.Firm g') (haborted : g.aborted ≠ none) : g'.aborted ≠ none := by
  obtain ⟨e, he⟩ := Option.ne_none_iff_exists'.1 haborted
  rw [h.aborted e he]
  rintro ⟨⟩

end Governor.Firm

def Control.isOver : Control → Bool
  | .settle _ | .finished => true
  | _ => false

theorem Control.atRest_of_isOver {control : Control} (h : control.isOver = true) : control.atRest = true := by
  cases control with
  | settle | finished => rfl
  | _ => cases h

namespace Run

variable {side : Side} {r : Run} {d : Desk} {t : Thread} {stack : List Frame}

theorem becomeIdle_firm {r' : Run} (h : r.governor.Firm r'.governor) : r.governor.Firm (r'.becomeIdle d).1.governor := by
  obtain ⟨waiters, hgovernor⟩ := r'.becomeIdle_governor d
  rw [hgovernor]
  exact ⟨h.cancelled, h.aborted, h.unmoved⟩

theorem aborted_firm (r : Run) (d : Desk) (e : ScriptError) : r.governor.Firm (r.aborted d e).1.governor := by
  refine ⟨fun hcancelled => hcancelled, fun first haborted => ?_, fun hcancelled => if_pos hcancelled⟩
  change (if r.governor.cancelled then r.governor.aborted else r.governor.aborted.or (some e)) = some first
  rw [haborted]
  split <;> rfl

theorem leaveHandler_firm (r : Run) (d : Desk) (result : Except Raised Unit) :
    r.governor.Firm (r.leaveHandler d result).run.governor := by
  obtain ⟨r', d', hjudged, hstep⟩ := r.leaveHandler_judged d result
  have hfirm : r.governor.Firm r'.governor := by
    cases hjudged with
    | well => exact .of_eq rfl rfl
    | aborted e => exact r.aborted_firm d e
  have hfinished : r'.governor.Firm (r'.handlerFinished d').1.governor := by
    obtain ⟨waiters, hgovernor⟩ := r'.handlerFinished_governor d'
    rw [hgovernor]
    exact .of_eq rfl rfl
  rcases hstep with hstep | hstep
  · rw [hstep]
    exact hfirm.trans hfinished
  · rw [hstep]
    exact hfirm.trans hfinished

theorem close_firm (r : Run) (d : Desk) (ending : Ending) : r.governor.Firm (r.close d ending).run.governor := by
  rw [close_governor]
  exact ⟨fun _ => rfl, fun _ haborted => haborted, fun _ => rfl⟩

theorem resume_firm (service : ServiceId) (releases interrupted : Bool) :
    r.governor.Firm (r.resume d service releases interrupted stack).run.governor := by
  unfold resume
  dsimp only
  split
  · exact .of_eq rfl rfl
  · split <;> exact .of_eq rfl rfl

theorem step_firm (hfits : t.Fits) (hsided : t.Sided side) : r.governor.Firm (step side r d t).run.governor := by
  cases hsided.turn hfits with
  | computes hcomputes =>
    rw [(@step_calm side r d t hcomputes).alike.governor]
    exact .of_eq rfl rfl
  | checkpoint stack =>
    simp only [step, checkpoint]
    split
    · exact .of_eq rfl rfl
    · split <;> exact .of_eq rfl rfl
  | request work stack =>
    simp only [step, request]
    split
    · exact .of_eq rfl rfl
    · split
      · exact becomeIdle_firm (.of_eq rfl rfl)
      · exact .of_eq rfl rfl
  | resume service stack => exact resume_firm service _ false
  | handled signal => exact r.leaveHandler_firm d (.ok ())
  | failed e => exact r.leaveHandler_firm d (.error e)
  | ran signal => exact .of_eq rfl rfl
  | stopped e hframe =>
    rcases hframe with rfl | ⟨v, rfl⟩
    · exact r.close_firm d _
    · exact r.close_firm d _
  | joined result v =>
    simp only [step, reply]
    split
    · exact r.close_firm d _
    · exact r.close_firm d _
  | start =>
    cases side with
    | main =>
      have hgovernor : (step .main r d ⟨.start, []⟩).run.governor = r.governor := r.hoist_governor _
      rw [hgovernor]
      exact .of_eq rfl rfl
    | worker => exact .of_eq rfl rfl
  | receive =>
    simp only [step, receive]
    split
    · exact .of_eq rfl rfl
    · split
      · exact .of_eq rfl rfl
      · split <;> exact .of_eq rfl rfl
  | settle ending => exact .of_eq rfl rfl
  | finished => exact .of_eq rfl rfl

theorem interruptWorker_firm (hrested : t.Rested) : r.governor.Firm (r.interruptWorker d t).run.governor := by
  cases hrested with
  | resume service stack => exact @resume_firm { r with workerCancelled := false } d stack service true true
  | recheck stack => exact .of_eq rfl rfl
  | @bare control hresume hrecheck =>
    simp only [interruptWorker]
    exact .of_eq rfl rfl

inductive Closes (r : Run) (d : Desk) : Thread → Ending → Prop
  | stopped (e : Raised) (frame : Frame) : Closes r d ⟨.raised e, [frame]⟩ (endingOf e)
  | aborted (result : ServiceResult) (v : Value) (e : ScriptError) (h : r.governor.aborted = some e) :
      Closes r d ⟨.replied result, [.closing v]⟩ (.failed e)
  | joined (result : ServiceResult) (v : Value) (h : r.governor.aborted = none) :
      Closes r d ⟨.replied result, [.closing v]⟩ (.completed v)

/-- A main thread that is over after a step was over before, or has just closed its run. -/
theorem step_over (hfits : t.Fits) (hsided : t.Sided .main) (hover : (step .main r d t).thread.control.isOver = true) :
    t.control.isOver = true ∨ ∃ ending, r.Closes d t ending ∧ step .main r d t = r.close d ending := by
  cases hsided.turn hfits with
  | computes hcomputes =>
    have hinner := (@step_calm .main r d t hcomputes).inner
    rw [Control.atRest_of_isOver hover] at hinner
    cases hinner
  | checkpoint stack =>
    simp only [step, checkpoint] at hover
    split at hover
    · cases hover
    · split at hover <;> cases hover
  | request work stack =>
    simp only [step, request] at hover
    split at hover <;> cases hover
  | resume service stack =>
    simp only [step, resume] at hover
    split at hover
    · cases hover
    · split at hover <;> cases hover
  | ran signal => cases hover
  | stopped e hframe =>
    refine .inr ⟨endingOf e, .stopped e _, ?_⟩
    rcases hframe with rfl | ⟨v, rfl⟩
    · rfl
    · rfl
  | joined result v =>
    right
    simp only [step, reply]
    split
    · rename_i e haborted
      exact ⟨_, .aborted result v e haborted, rfl⟩
    · rename_i hnone
      exact ⟨_, .joined result v hnone, rfl⟩
  | start => cases hover
  | settle ending => exact .inl rfl
  | finished => exact .inl rfl

end Run

namespace Moment

variable {m n : Moment} {id : RunId} {side : Side}

theorem Move.firm (hn : Move m n) (hm : Possible m) (hid : id < m.size) :
    (m.run id).governor.Firm (n.run id).governor := by
  have hfits (side : Side) : (m.thread id side).Fits := hm.sound.thread id side
  have hsided (side : Side) : (m.thread id side).Sided side := hm.attended.sided hid side
  cases hn.share hm.sound hid with
  | step side ready hacts hat hother =>
    rw [hat.run]
    exact Run.step_firm (hfits side) (hsided side)
  | interrupted ready hacts hrest hat hother =>
    rw [hat.run]
    exact Run.interruptWorker_firm ((hsided .worker).rested (hfits .worker) hrest)
  | rested main worker ready hrun hdesk hthreads =>
    rw [hrun]
    exact .of_eq rfl rfl
  | served service ready howner hrun hdesk hthreads =>
    obtain ⟨waiters, hgovernor, -⟩ := (m.run id).stepService_governor { m.desk with ready } service
    rw [hrun, hgovernor]
    exact .of_eq rfl rfl
  | cancelled hrests hrun hdesk hthreads =>
    rw [hrun]
    exact ⟨fun _ => rfl, fun _ haborted => haborted, fun _ => rfl⟩
  | aside hrun hthreads =>
    rw [hrun]
    exact .of_eq rfl rfl

theorem Moves.firm (hn : Moves m n) (hm : Possible m) (hid : id < m.size) :
    (m.run id).governor.Firm (n.run id).governor :=
  hn.run_induction (P := fun n => (m.run id).governor.Firm (n.run id).governor) hm hid
    (fun hm hid hn h => h.trans (hn.firm hm hid)) (.of_eq rfl rfl)

/-- A move that is no step of the run leaves its threads where they are. -/
theorem Move.stands (hn : Move m n) (hm : m.Sound) (hid : id < m.size) (hacts : ∀ side, ¬Acts id side m n) :
    (∀ side, n.thread id side = m.thread id side) ∧ (n.run id).ending = (m.run id).ending := by
  cases hn.share hm hid with
  | step side _ hact => exact absurd hact (hacts side)
  | interrupted _ hact => exact absurd hact (hacts .worker)
  | rested main worker ready hrun hdesk hthreads =>
    refine ⟨hthreads, ?_⟩
    rw [hrun]
  | served service ready howner hrun hdesk hthreads =>
    refine ⟨hthreads, ?_⟩
    rw [hrun]
    exact ((m.run id).stepService_gets _ service id).2
  | cancelled hrests hrun hdesk hthreads =>
    refine ⟨hthreads, ?_⟩
    rw [hrun]
    rfl
  | aside hrun hthreads => exact ⟨hthreads, congrArg Run.ending hrun⟩

/-- A run gets its ending from its main thread, which closed its box before. -/
theorem Acts.ending (hacts : Acts id side m n) (hm : Possible m) (hid : id < m.size) :
    (n.run id).ending = (m.run id).ending ∨
      side = .main ∧ ∃ ending, (m.thread id side).control = .settle ending ∧ (n.run id).ending = some ending := by
  obtain ⟨ready, s, -, hat, hdeals⟩ := hacts.deals hm hid
  rw [hat.run]
  refine hdeals.ending.imp_right fun ⟨ending, hsettle, hending⟩ => ⟨?_, ending, hsettle, hending⟩
  have hof := (hm.attended.sided hid side).control
  rw [hsettle] at hof
  exact of_decide_eq_true hof

theorem Move.acts_of_within {w : World} {s : Step} (hn : Move m (within w id side s)) : Acts id side m (within w id side s) := by
  cases hn with
  | next hn =>
    cases hn with
    | thread hpop => exact .first hpop
    | step hpace => exact .step hpace

theorem Acts.main_step (hacts : Acts id .main m n) (hm : m.Sound) : ∃ ready : Queue Ready,
    n.At id .main (Run.step .main (m.run id) { m.desk with ready } (m.thread id .main)) ∧
      n.thread id .worker = m.thread id .worker := by
  obtain ⟨hother, ready, -, hat | ⟨hside, -⟩⟩ := hacts.stride hm
  · exact ⟨ready, hat, hother⟩
  · cases hside

/-- The main thread moves only by its own steps, and only they end its run. -/
theorem Move.main_cases (hn : Move m n) (hm : Possible m) (hid : id < m.size) : Acts id .main m n ∨
    n.thread id .main = m.thread id .main ∧ (n.run id).ending = (m.run id).ending := by
  by_cases hmain : Acts id .main m n
  · exact .inl hmain
  right
  by_cases hworker : Acts id .worker m n
  · obtain ⟨hother, -⟩ := hworker.stride hm.sound
    refine ⟨hother, (hworker.ending hm hid).resolve_right ?_⟩
    rintro ⟨hside, -⟩
    cases hside
  · have hnone (side : Side) : ¬Acts id side m n := by
      cases side with
      | main => exact hmain
      | worker => exact hworker
    obtain ⟨hthreads, hending⟩ := hn.stands hm.sound hid hnone
    exact ⟨hthreads .main, hending⟩

/-- A main thread that has closed its run has only to say how it ended. -/
theorem Acts.finishes (hacts : Acts id .main m n) (hm : m.Sound) (hover : (m.thread id .main).control.isOver = true) :
    (n.thread id .main).control = .finished := by
  obtain ⟨ready, hat, -⟩ := hacts.main_step hm
  rw [hat.thread]
  generalize m.thread id .main = t at hover
  obtain ⟨control, stack⟩ := t
  cases control with
  | settle | finished => rfl
  | _ => cases hover

/-- A main thread that is over after an act was over before, or has just closed its run. -/
theorem Acts.over_cases (hacts : Acts id .main m n) (hm : Possible m) (hid : id < m.size)
    (hover : (n.thread id .main).control.isOver = true) : (m.thread id .main).control.isOver = true ∨
      ∃ (ready : Queue Ready) (ending : Ending), (m.run id).Closes { m.desk with ready } (m.thread id .main) ending ∧
        n.At id .main ((m.run id).close { m.desk with ready } ending) ∧
        n.thread id .worker = m.thread id .worker := by
  obtain ⟨ready, hat, hworker⟩ := hacts.main_step hm.sound
  rw [hat.thread] at hover
  rcases Run.step_over (hm.sound.thread id .main) (hm.attended.sided hid .main) hover with hbefore | ⟨ending, hcloses, hstep⟩
  · exact .inl hbefore
  · exact .inr ⟨ready, ending, hcloses, hat.of_eq hstep, hworker⟩

theorem Move.over (hn : Move m n) (hm : Possible m) (hid : id < m.size)
    (hover : (m.thread id .main).control.isOver = true) : (n.thread id .main).control.isOver = true := by
  rcases hn.main_cases hm hid with hacts | ⟨hthread, -⟩
  · rw [hacts.finishes hm.sound hover]
    rfl
  · rw [hthread]
    exact hover

theorem Moves.over (hn : Moves m n) (hm : Possible m) (hid : id < m.size)
    (hover : (m.thread id .main).control.isOver = true) : (n.thread id .main).control.isOver = true :=
  hn.run_induction (P := fun n => (n.thread id .main).control.isOver = true) hm hid
    (fun hm hid hn hover => hn.over hm hid hover) hover

theorem Sound.desk (hm : m.Sound) : m.desk.Sound := by
  cases m with
  | resting w => exact World.Sound.desk hm
  | within w active working s => exact hm.2.1.desk

theorem Move.terms (hn : Move m n) (hm : Possible m) (hid : id < m.size) : (m.run id).SameTerms (n.run id) := by
  cases hn with
  | next hn => exact hn.terms hm.sound hid
  | reorder _ => exact .refl _

theorem Moves.terms (hn : Moves m n) (hm : Possible m) (hid : id < m.size) : (m.run id).SameTerms (n.run id) :=
  hn.run_induction (P := fun n => (m.run id).SameTerms (n.run id)) hm hid (fun hm hid hn h => h.trans (hn.terms hm hid))
    (.refl _)

/-- A run that its main thread has not closed has the ending that it was launched with, if any. -/
theorem Possible.over_or_launched (hm : Possible m) (hid : id < m.size) : (m.thread id .main).control.isOver = true ∨
    ∃ r : Run, r.Unbegun ∧ (m.run id).program = r.program ∧ (m.run id).ending = r.ending := by
  refine hm.run_induction (P := fun id m => (m.thread id .main).control.isOver = true ∨
    ∃ r : Run, r.Unbegun ∧ (m.run id).program = r.program ∧ (m.run id).ending = r.ending) hid
    (fun hunbegun _ => .inr ⟨_, hunbegun, rfl, rfl⟩) fun {m n id} hm hid hn ih => ?_
  rcases ih with hover | ⟨r, hr, hprogram, hending⟩
  · exact .inl (hn.over hm hid hover)
  have hsame (hkept : (n.run id).ending = (m.run id).ending) :
      ∃ r : Run, r.Unbegun ∧ (n.run id).program = r.program ∧ (n.run id).ending = r.ending :=
    ⟨r, hr, (hn.terms hm hid).program.trans hprogram, hkept.trans hending⟩
  rcases hn.main_cases hm hid with hacts | ⟨-, hkept⟩
  · rcases hacts.ending hm hid with hkept | ⟨-, ending, hsettle, -⟩
    · exact .inr (hsame hkept)
    · refine .inl (hn.over hm hid ?_)
      rw [hsettle]
      rfl
  · exact .inr (hsame hkept)

/-- The main thread of a program closes its run before it ends it. -/
theorem Possible.over_of_ended (hm : Possible m) (hid : id < m.size) (hprogram : (m.run id).program.isSome = true)
    (hended : (m.run id).ending.isSome = true) : (m.thread id .main).control.isOver = true := by
  refine (hm.over_or_launched hid).resolve_right ?_
  rintro ⟨r, hr, hsame, hending⟩
  rw [hsame] at hprogram
  rw [hending, hr.unended hprogram] at hended
  cases hended

theorem Possible.over_of_completed (hm : Possible m) (hid : id < m.size) {v : Value}
    (hended : (m.run id).ending = some (.completed v)) : (m.thread id .main).control.isOver = true := by
  refine (hm.over_or_launched hid).resolve_right ?_
  rintro ⟨r, hr, -, hending⟩
  exact hr.ending v (hending.symm.trans hended)

/-- The run has ended in the given way, or waits for its worker to end so. -/
inductive Settles (id : RunId) (ending : Ending) (m : Moment) : Prop
  | waits (h : m.thread id .main = ⟨.settle ending, []⟩)
  | ended (h : m.thread id .main = ⟨.finished, []⟩) (hending : (m.run id).ending = some ending)

/-- A main thread that has finished stays so, and the run keeps its ending. -/
theorem Move.finished (hn : Move m n) (hm : Possible m) (hid : id < m.size) (h : m.thread id .main = ⟨.finished, []⟩) :
    n.thread id .main = ⟨.finished, []⟩ ∧ (n.run id).ending = (m.run id).ending := by
  rcases hn.main_cases hm hid with hacts | ⟨hthread, hsame⟩
  · obtain ⟨ready, hat, -⟩ := hacts.main_step hm.sound
    rw [hat.thread, hat.run, h]
    exact ⟨rfl, rfl⟩
  · exact ⟨hthread.trans h, hsame⟩

theorem Settles.move {ending : Ending} (h : Settles id ending m) (hm : Possible m) (hid : id < m.size) (hn : Move m n) :
    Settles id ending n := by
  cases h with
  | ended h hending =>
    obtain ⟨hfinished, hsame⟩ := hn.finished hm hid h
    exact .ended hfinished (hsame.trans hending)
  | waits h =>
    rcases hn.main_cases hm hid with hacts | ⟨hthread, -⟩
    · obtain ⟨ready, hat, -⟩ := hacts.main_step hm.sound
      refine .ended ?_ ?_
      · rw [hat.thread, h]
        rfl
      · rw [hat.run, h]
        rfl
    · exact .waits (hthread.trans h)

theorem Settles.moves {ending : Ending} (h : Settles id ending m) (hm : Possible m) (hid : id < m.size) (hn : Moves m n) :
    Settles id ending n :=
  hn.run_induction hm hid (fun hm hid hn h => h.move hm hid hn) h

/-- What holds when a run has just closed, and is kept by every move after, holds of every run that has closed. -/
theorem Possible.over_induction {P : RunId → Moment → Prop} (hm : Possible m) (hid : id < m.size)
    (hclose : ∀ {m n : Moment} {id : RunId} {ready : Queue Ready} {ending : Ending}, Possible m → id < m.size →
      Acts id .main m n → (m.run id).Closes { m.desk with ready } (m.thread id .main) ending →
      n.At id .main ((m.run id).close { m.desk with ready } ending) →
      n.thread id .worker = m.thread id .worker → P id n)
    (hmove : ∀ {m n : Moment} {id : RunId}, Possible m → id < m.size → Move m n →
      (m.thread id .main).control.isOver = true → P id m → P id n)
    (hover : (m.thread id .main).control.isOver = true) : P id m := by
  refine hm.run_induction (P := fun id m => (m.thread id .main).control.isOver = true → P id m) hid
    (fun _ hthreads hover => ?_) (fun {m n id} hm hid hn ih hover => ?_) hover
  · rw [hthreads] at hover
    cases hover
  · by_cases hbefore : (m.thread id .main).control.isOver = true
    · exact hmove hm hid hn hbefore (ih hbefore)
    -- The thread has just closed its run.
    rcases hn.main_cases hm hid with hacts | ⟨hthread, -⟩
    · obtain ⟨ready, ending, hcloses, hat, hworker⟩ := (hacts.over_cases hm hid hover).resolve_left hbefore
      exact hclose hm hid hacts hcloses hat hworker
    · rw [hthread] at hover
      exact absurd hover hbefore

theorem Possible.cancelled_of_over (hm : Possible m) (hid : id < m.size)
    (hover : (m.thread id .main).control.isOver = true) : (m.run id).governor.cancelled = true := by
  refine hm.over_induction (P := fun id m => (m.run id).governor.cancelled = true) hid ?_ ?_ hover
  · intro m n id ready ending _ _ _ _ hat _
    rw [hat.run, Run.close_governor]
  · intro m n id hm hid hn _ hcancelled
    exact (hn.firm hm hid).cancelled hcancelled

end Moment

end DeskScript
