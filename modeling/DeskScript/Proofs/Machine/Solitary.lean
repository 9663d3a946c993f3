import DeskScript.Proofs.Machine.Books

set_option autoImplicit false

/-!
# Main threads on their own

In a run without handlers nobody is in the way of the main thread: what it asks leave for, it has leave for at once, and
only cancellation stops it from outside. Main statements: `Moment.Possible.solitary`, `Run.step_granted`,
`Run.step_naps`.
-/

namespace DeskScript

def Control.isGranted : Control → Bool
  | .clear | .passed | .perform .. => true
  | _ => false

theorem Control.not_rest_of_granted {control : Control} (h : control.isGranted = true) : control.atRest = false := by
  cases control <;> first | rfl | cases h

def Control.waits : Control → Bool
  | .request _ | .resume .. | .replied _ => true
  | _ => false

def Thread.Unheld (t : Thread) : Prop := ∀ stack, t.HeldAt stack → t.control = .clear

theorem Thread.unheld_of {t : Thread} (h : t.control.waits = false) : t.Unheld := by
  intro stack hheld
  cases hheld with
  | clear => rfl
  | request | resume | replied => cases h

theorem Thread.unheld_of_head {control : Control} {frame : Frame} {stack : List Frame} (hframe : frame ≠ .clearing)
    (hcontrol : control ≠ .clear) : Thread.Unheld ⟨control, frame :: stack⟩ := by
  intro below hheld
  cases hheld with
  | clear => exact absurd rfl hcontrol
  | request | resume | replied => exact absurd rfl hframe

namespace Run

variable {r : Run} {d : Desk} {t : Thread}

theorem calm_unheld {before : Control} {stack : List Frame} {s : Step} (h : s.Calm .main r d before stack)
    (hidle : r.governor.idle = true) : s.thread.Unheld := by
  have hgate := h.gate
  have hasks := h.asks
  have hresume := Control.not_resume_of_inner h.inner
  generalize s.thread = next at hgate hasks hresume ⊢
  intro below hheld
  cases hheld with
  | clear => rfl
  | request =>
    obtain ⟨frame, hframe, hasks⟩ := hasks .idle rfl
    cases hframe
    cases hasks with
    | idle hbusy =>
      rw [isClear, hidle] at hbusy
      cases hbusy
    | call _ hframe => exact absurd rfl hframe
  | resume service releases => exact absurd rfl (hresume service releases)
  | replied result => cases hgate rfl

/-- The main thread does not begin to wait for handlers while none is busy. -/
theorem step_unheld (hfits : t.Fits) (hsided : t.Sided .main) (hidle : r.governor.idle = true) (h : t.Unheld) :
    (step .main r d t).thread.Unheld := by
  have hraised (e : Raised) (stack : List Frame) : Thread.Unheld ⟨.raised e, stack⟩ := Thread.unheld_of rfl
  cases hsided.turn hfits with
  | computes hcomputes => exact calm_unheld (@step_calm .main r d t hcomputes) hidle
  | checkpoint stack =>
    simp only [step, checkpoint]
    split
    · exact hraised _ _
    · split
      · exact hraised _ _
      · exact Thread.unheld_of rfl
      · exact Thread.unheld_of rfl
  | request work stack =>
    simp only [step, request]
    split
    · exact hraised _ _
    · intro below hheld
      cases hheld with
      | resume service releases =>
        -- the wait would have been asked for before
        obtain rfl : work = .idle := hsided.asks work rfl rfl
        cases h below .request
  | resume service stack =>
    simp only [step, resume]
    split
    · exact hraised _ _
    · split
      · exact hraised _ _
      · intro below hheld
        cases hheld with
        | replied result => cases h below (.resume service _)
      · exact hraised _ _
  | ran signal =>
    refine Thread.unheld_of_head (fun hframe => ?_) fun hcontrol => ?_
    · cases hframe
    · cases hcontrol
  | stopped e hframe =>
    rcases hframe with rfl | ⟨v, rfl⟩
    · exact Thread.unheld_of rfl
    · exact Thread.unheld_of rfl
  | joined result v =>
    simp only [step, reply]
    split
    · exact Thread.unheld_of rfl
    · exact Thread.unheld_of rfl
  | start => exact Thread.unheld_of rfl
  | settle ending => exact Thread.unheld_of rfl
  | finished => exact Thread.unheld_of rfl

/-- Leave that the main thread has, it had before, or it has just asked the governor. -/
theorem step_granted (hfits : t.Fits) (hsided : t.Sided .main) (h : t.Unheld)
    (hgranted : (step .main r d t).thread.control.isGranted = true) :
    t.control.isGranted = true ∨ r.objection? d.host.clock.seconds = none := by
  cases hsided.turn hfits with
  | computes hcomputes =>
    have hcalm := @step_calm .main r d t hcomputes
    have hgrants := hcalm.gate
    generalize (step .main r d t).thread.control = next at hgrants hgranted
    have hgate : next.isGate = true := by
      cases next with
      | clear | passed | perform => rfl
      | _ => cases hgranted
    obtain ⟨control, stack⟩ := t
    cases hgrants hgate with
    | checked hnone => exact .inr hnone
    | woken result hmem =>
      obtain ⟨rest, rfl⟩ := clearing_top hfits hmem
      cases h rest (.replied result)
    | passed _ => exact .inl rfl
    | performed _ _ => exact .inl rfl
  | checkpoint stack =>
    simp only [step, checkpoint] at hgranted
    split at hgranted
    · cases hgranted
    · rename_i hnone
      exact .inr hnone
  | request work stack =>
    simp only [step, request] at hgranted
    split at hgranted <;> cases hgranted
  | resume service stack =>
    simp only [step, resume] at hgranted
    split at hgranted
    · cases hgranted
    · split at hgranted <;> cases hgranted
  | ran signal => cases hgranted
  | stopped e hframe => rcases hframe with rfl | ⟨v, rfl⟩ <;> cases hgranted
  | joined result v =>
    simp only [step, reply] at hgranted
    split at hgranted <;> cases hgranted
  | start => cases hgranted
  | settle ending => cases hgranted
  | finished => cases hgranted

/-- A thread that asks to sleep has just been told how long. -/
theorem step_naps (hfits : t.Fits) (hsided : t.Sided .main) {ms : Time}
    (hasks : (step .main r d t).thread.control = .request (.sleep ms)) : r.Naps d ms := by
  cases hsided.turn hfits with
  | computes hcomputes =>
    obtain ⟨frame, -, hasked⟩ := (@step_calm .main r d t hcomputes).asks _ hasks
    cases hasked with
    | sleep hnaps => exact hnaps
    | call hwork => exact absurd rfl (hwork ms)
  | checkpoint stack =>
    simp only [step, checkpoint] at hasks
    split at hasks
    · cases hasks
    · split at hasks <;> cases hasks
  | request work stack =>
    simp only [step, request] at hasks
    split at hasks <;> cases hasks
  | resume service stack =>
    simp only [step, resume] at hasks
    split at hasks
    · cases hasks
    · split at hasks <;> cases hasks
  | ran signal => cases hasks
  | stopped e hframe => rcases hframe with rfl | ⟨v, rfl⟩ <;> cases hasks
  | joined result v =>
    simp only [step, reply] at hasks
    split at hasks <;> cases hasks
  | start => cases hasks
  | settle ending => cases hasks
  | finished => cases hasks

theorem step_main_aborted (hfits : t.Fits) (hsided : t.Sided .main) :
    (step .main r d t).run.governor.aborted = r.governor.aborted := by
  cases hsided.turn hfits with
  | computes hcomputes => exact congrArg Governor.aborted (@step_calm .main r d t hcomputes).alike.governor
  | checkpoint stack =>
    simp only [step, checkpoint]
    split
    · rfl
    · split <;> rfl
  | request work stack =>
    simp only [step, request]
    split <;> rfl
  | resume service stack =>
    simp only [step, resume]
    split
    · rfl
    · split <;> rfl
  | ran signal => rfl
  | stopped e hframe =>
    rcases hframe with rfl | ⟨v, rfl⟩
    · exact (congrArg Governor.aborted (r.close_governor d _) :)
    · exact (congrArg Governor.aborted (r.close_governor d _) :)
  | joined result v =>
    simp only [step, reply]
    split
    · exact (congrArg Governor.aborted (r.close_governor d _) :)
    · exact (congrArg Governor.aborted (r.close_governor d _) :)
  | start => exact congrArg Governor.aborted (r.hoist_governor _)
  | settle ending => rfl
  | finished => rfl

/-- A worker that has no handler to run leaves the governor alone, when its run is not to hear of a new one. -/
theorem step_bare_aborted {control : Control} (hfits : Thread.Fits ⟨control, []⟩)
    (hsided : Thread.Sided .worker ⟨control, []⟩) :
    (step .worker r d ⟨control, []⟩).run.governor.aborted = r.governor.aborted := by
  cases hsided.turn hfits with
  | computes hcomputes => exact congrArg Governor.aborted (@step_calm .worker r d _ hcomputes).alike.governor
  | checkpoint | request | resume => exact hfits.elim
  | start => rfl
  | receive =>
    simp only [step, receive]
    split
    · rfl
    · split
      · rfl
      · split <;> rfl
  | finished => rfl

end Run

namespace Moment

variable {m n : Moment} {id : RunId}

structure Solitary (id : RunId) (m : Moment) : Prop where
  idle : (m.run id).governor.idle = true
  aborted : (m.run id).governor.aborted = none
  unheld : (m.thread id .main).Unheld

theorem Move.handlerless (hn : Move m n) (hm : Possible m) (hid : id < m.size) :
    (n.run id).Handlerless ↔ (m.run id).Handlerless := by
  rw [Run.Handlerless, Run.Handlerless, (hn.terms hm hid).program]

theorem Possible.idle_of_handlerless (hm : Possible m) (hid : id < m.size) (h : (m.run id).Handlerless) :
    (m.run id).governor.idle = true := by
  rw [← Bool.not_eq_false]
  intro hbusy
  exact (hm.attended.busy hid hbusy).1 (hm.worker_bare hid h)

/-- The worker of a run without handlers is a control alone. -/
theorem Possible.worker_control (hm : Possible m) (hid : id < m.size) (h : (m.run id).Handlerless) :
    m.thread id .worker = ⟨(m.thread id .worker).control, []⟩ := by
  have hbare := hm.worker_bare hid h
  generalize m.thread id .worker = t at hbare ⊢
  obtain ⟨control, stack⟩ := t
  exact congrArg (Thread.mk control) hbare

theorem Possible.solitary (hm : Possible m) (hid : id < m.size) (h : (m.run id).Handlerless) : Solitary id m := by
  suffices hkept : (m.run id).governor.aborted = none ∧ (m.thread id .main).Unheld from
    ⟨hm.idle_of_handlerless hid h, hkept.1, hkept.2⟩
  refine hm.run_induction (P := fun id m => (m.run id).Handlerless →
    (m.run id).governor.aborted = none ∧ (m.thread id .main).Unheld) hid (fun hunbegun hthreads _ => ?_)
    (fun {m n id} hm hid hn ih h => ?_) h
  · rw [hunbegun.governor, hthreads]
    exact ⟨rfl, Thread.unheld_of rfl⟩
  have hbefore := (hn.handlerless hm hid).1 h
  obtain ⟨haborted, hunheld⟩ := ih hbefore
  have hfits := hm.sound.thread id
  have hsided := hm.attended.sided hid
  cases hn.share hm.sound hid with
  | step side ready hacts hat hother =>
    rw [hat.run]
    cases side with
    | main =>
      rw [hat.thread]
      exact ⟨(Run.step_main_aborted (hfits .main) (hsided .main)).trans haborted,
        Run.step_unheld (hfits .main) (hsided .main) (hm.idle_of_handlerless hid hbefore) hunheld⟩
    | worker =>
      have hworker := hm.worker_control hid hbefore
      have hfits := hfits .worker
      have hsided := hsided .worker
      rw [hworker] at hfits hsided ⊢
      exact ⟨(Run.step_bare_aborted hfits hsided).trans haborted, hother ▸ hunheld⟩
  | interrupted ready hacts hrest hat hother =>
    rw [hat.run]
    refine ⟨?_, hother ▸ hunheld⟩
    have hbare := hm.worker_bare hid hbefore
    have hrested := (hsided .worker).rested (hfits .worker) hrest
    have hfits := hfits .worker
    generalize m.thread id .worker = t at hbare hrested hfits ⊢
    cases hrested with
    | resume service stack =>
      cases hbare
      exact hfits.elim
    | recheck stack =>
      cases hbare
      exact hfits.elim
    | @bare control hresume hrecheck =>
      simp only [Run.interruptWorker]
      exact haborted
  | rested main worker ready hrun _ hthreads =>
    rw [hrun, hthreads]
    exact ⟨haborted, hunheld⟩
  | served service ready _ hrun _ hthreads =>
    obtain ⟨waiters, hgovernor, -⟩ := (m.run id).stepService_governor { m.desk with ready } service
    rw [hrun, hgovernor, hthreads]
    exact ⟨haborted, hunheld⟩
  | cancelled _ hrun _ hthreads =>
    rw [hrun, hthreads]
    exact ⟨haborted, hunheld⟩
  | aside hrun hthreads =>
    rw [hrun, hthreads]
    exact ⟨haborted, hunheld⟩

end Moment

end DeskScript
