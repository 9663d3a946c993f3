import DeskScript.Proofs.Machine.Running

set_option autoImplicit false

/-!
# A run ends after its worker

The main thread closes its run and then waits for the worker: a run that has closed gathers, and its main thread finishes
only when the worker has. Main statement: `Moment.Possible.finished_of_ended`.
-/

namespace DeskScript

namespace Run

variable {side : Side} {r : Run} {d : Desk} {t : Thread}

/-- A run that waits for its worker waits for it after every step. -/
theorem step_gathers (hfits : t.Fits) (hsided : t.Sided side) (h : r.gathering = true) :
    (step side r d t).run.gathering = true := by
  have hleave (result : Except Raised Unit) : (r.leaveHandler d result).run.gathering = true := by
    obtain ⟨r', d', hjudged, hstep⟩ := r.leaveHandler_judged d result
    have hgathering : r'.gathering = true := by
      cases hjudged with
      | well => exact h
      | aborted e => exact h
    have hfinished := (r'.handlerFinished_abides d').1.gathering.trans hgathering
    rcases hstep with hstep | hstep
    · rw [hstep]
      exact hfinished
    · rw [hstep]
      exact hfinished
  cases hsided.turn hfits with
  | computes hcomputes => exact (step_calm hcomputes).alike.gathering.trans h
  | checkpoint stack =>
    simp only [step, checkpoint]
    split
    · exact h
    · split <;> exact h
  | request work stack =>
    simp only [step, request]
    split
    · exact h
    · cases side with
      | main => exact h
      | worker => exact (becomeIdle_abides _ _).1.gathering.trans h
  | resume service stack =>
    simp only [step, resume]
    split
    · exact h
    · split <;> exact h
  | handled signal => exact hleave (.ok ())
  | failed e => exact hleave (.error e)
  | ran signal => exact h
  | stopped e hframe => rcases hframe with rfl | ⟨v, rfl⟩ <;> rfl
  | joined result v =>
    simp only [step, reply]
    split <;> rfl
  | start =>
    cases side with
    | main => exact (r.hoist_abides _).gathering.trans h
    | worker => exact h
  | receive =>
    simp only [step, receive]
    split
    · exact h
    · split
      · exact h
      · split <;> exact h
  | settle ending =>
    simp only [step, settle]
    exact h
  | finished => exact h

theorem interruptWorker_gathers (hrested : t.Rested) (h : r.gathering = true) :
    (r.interruptWorker d t).run.gathering = true := by
  cases hrested with
  | resume service stack =>
    simp only [interruptWorker, resume, if_true]
    exact h
  | recheck stack => exact h
  | @bare control hresume hrecheck =>
    simp only [interruptWorker]
    exact h

end Run

namespace Moment

variable {m n : Moment} {id : RunId}

theorem Move.gathers (hn : Move m n) (hm : Possible m) (hid : id < m.size) (h : (m.run id).gathering = true) :
    (n.run id).gathering = true := by
  by_cases hacts : ∃ side, Acts id side m n
  · obtain ⟨side, hacts⟩ := hacts
    have hfits := hm.sound.thread id side
    have hsided := hm.attended.sided hid side
    obtain ⟨-, ready, -, hat | ⟨rfl, hrest, hat⟩⟩ := hacts.stride hm.sound
    · rw [hat.run]
      exact Run.step_gathers hfits hsided h
    · rw [hat.run]
      exact Run.interruptWorker_gathers (hsided.rested hfits hrest) h
  · exact (hn.abides hm hid fun side hside => hacts ⟨side, hside⟩).1.trans h

theorem Possible.gathering_of_over (hm : Possible m) (hid : id < m.size)
    (hover : (m.thread id .main).control.isOver = true) : (m.run id).gathering = true := by
  refine hm.over_induction (P := fun id m => (m.run id).gathering = true) hid ?_ ?_ hover
  · intro m n id ready ending _ _ _ _ hat _
    rw [hat.run]
    rfl
  · intro m n id hm hid hn _ h
    exact hn.gathers hm hid h

/-- When the run of a program has ended, both its threads have finished. -/
theorem Possible.finished_of_ended (hm : Possible m) (hid : id < m.size) (hprogram : (m.run id).program.isSome = true)
    (hended : (m.run id).ending.isSome = true) (side : Side) : m.thread id side = ⟨.finished, []⟩ := by
  have hmain := (hm.ended_iff hid hprogram).1 hended
  have hgathering := hm.gathering_of_over hid (hm.over_of_ended hid hprogram hended)
  have hload := (hm.rightful hid).load
  rw [hprogram, if_pos rfl, load, hmain, if_pos rfl] at hload
  have hworker : (m.thread id .worker).control.hasFinished = true := by
    cases hfinished : (m.thread id .worker).control.hasFinished with
    | true => rfl
    | false =>
      rw [Run.gathers_going _ hfinished, hgathering, if_pos rfl] at hload
      omega
  have hcontrol : (m.thread id side).control = .finished := by
    cases side with
    | main => exact Control.hasFinished_iff.1 hmain
    | worker => exact Control.hasFinished_iff.1 hworker
  have hfits := hm.sound.thread id side
  rw [Thread.Fits, hcontrol] at hfits
  exact congr (congrArg Thread.mk hcontrol) hfits

end Moment

end DeskScript
