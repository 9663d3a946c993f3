import DeskScript.Proofs.Machine.Exclusion

set_option autoImplicit false

/-!
# Runs that are stopped

A run is stopped when it is cancelled, or when a handler has failed. From then on whoever asks for leave hears of it. A
main thread that had asked before, and waited while a handler was busy, is interrupted, unless its wait was over already:
it does not ask again then, and begins one statement more. Main statement: `stopped_runs_begin_nothing`.
-/

namespace DeskScript

def Governor.isStopped (g : Governor) : Bool := g.cancelled || g.aborted.isSome

def Service.IsSpent (s : Service) : Prop := s.cancelled = true ∨ ∃ result, s.stage = .done result

/-- What a thread of a stopped run hears. -/
def Raised.isStop : Raised → Bool
  | .abort _ | .interrupted => true
  | .error e => e.cause.category = .cancelled
  | .fault _ => false

/-- A thread that does not ask the governor again before it begins a statement or a turn of a loop: it has leave, or will
look at the flag, or its wait for the flag is over. -/
inductive Thread.Late (d : Desk) : Thread → Prop
  | waiting {service : ServiceId} (releases : Bool) (stack : List Frame) {result : ServiceResult}
      (hdone : (d.service service).stage = .done result) (hanswer : result ≠ .interrupted) :
      Late d ⟨.resume service releases, .clearing :: stack⟩
  | replied (result : ServiceResult) (stack : List Frame) : Late d ⟨.replied result, .clearing :: stack⟩
  | clear (stack : List Frame) : Late d ⟨.clear, stack⟩
  | passed (stack : List Frame) : Late d ⟨.passed, stack⟩

theorem Thread.Late.of_services {d d' : Desk} {t : Thread} (h : t.Late d) (hservices : d'.services = d.services) :
    t.Late d' := by
  cases h with
  | waiting releases stack hdone hanswer =>
    refine .waiting releases stack ?_ hanswer
    rw [Desk.service, hservices]
    exact hdone
  | replied result stack => exact .replied result stack
  | clear stack => exact .clear stack
  | passed stack => exact .passed stack

theorem Thread.late_of_passed {d : Desk} {t : Thread} (h : t.control = .passed) : t.Late d := by
  obtain ⟨control, stack⟩ := t
  subst h
  exact .passed stack

theorem Thread.not_late {d : Desk} {t : Thread} (hgate : t.control.isGate = false)
    (hresume : ∀ service releases, t.control ≠ .resume service releases) : ¬t.Late d := by
  intro hlate
  cases hlate with
  | waiting => exact absurd rfl (hresume _ _)
  | replied | clear | passed => cases hgate

theorem Service.IsSpent.later {s s' : Service} (h : s.IsSpent) (hlater : s.Later s') : s'.IsSpent := by
  rcases h with hcancelled | ⟨result, hdone⟩
  · exact .inl (hlater.cancelled hcancelled)
  · exact .inr ⟨result, hlater.done result hdone⟩

namespace Desk

theorem interrupt_spent (d : Desk) {service : ServiceId} (hsize : service < d.services.size) :
    ((d.interrupt service).service service).IsSpent := by
  unfold interrupt
  split
  · rename_i result hdone
    exact .inr ⟨result, hdone⟩
  · left
    change (({ d with services := d.services.modify service fun s =>
      { s with cancelled := true, stage := .woken (.ok .null) } } : Desk).service service).cancelled = true
    rw [service_modify, if_pos ⟨rfl, hsize⟩]
  · left
    rw [service_modify, if_pos ⟨rfl, hsize⟩]

theorem interruptAll_spent (d : Desk) {ids : List ServiceId} {service : ServiceId} (hmem : service ∈ ids)
    (hsize : service < d.services.size) : ((d.interruptAll ids).service service).IsSpent := by
  induction ids generalizing d with
  | nil => cases hmem
  | cons id ids ih =>
    have honward := d.interrupt_onward id
    have hsize' : service < (d.interrupt id).services.size := Nat.lt_of_lt_of_le hsize honward.size
    rcases List.mem_cons.1 hmem with rfl | hmem
    · exact (d.interrupt_spent hsize).later (((d.interrupt service).interruptAll_onward ids).later hsize')
    · exact ih (d.interrupt id) hmem hsize'

end Desk

/-- What a step of a thread has to do with the end of its run and with those who wait. -/
structure Step.Heeds (side : Side) (r : Run) (d : Desk) (t : Thread) (s : Step) : Prop where
  pending : ∀ service ∈ r.governor.pending, (∀ releases, t.control ≠ .resume service releases) →
    service ∈ s.run.governor.pending
  opened : ∀ service releases, s.thread.control = .resume service releases → s.run.governor.isStopped = false ∧
    service ∈ s.run.governor.pending ∧ service < s.desk.services.size ∧ (s.desk.service service).run = r.id ∧
    (s.desk.service service).side = side
  stays : r.governor.isStopped = true → s.run.governor.isStopped = true
  stops : r.governor.isStopped = false → s.run.governor.isStopped = true → s.thread.control.atRest = true ∧
    ∀ service ∈ r.governor.pending, service < d.services.size → (s.desk.service service).IsSpent

namespace Run

variable {side : Side} {r : Run} {d : Desk} {t : Thread} {stack : List Frame}

/-- A step that does not stop the run, nor open a service. -/
theorem heeds_go {s : Step} (hpending : ∀ service ∈ r.governor.pending,
      (∀ releases, t.control ≠ .resume service releases) → service ∈ s.run.governor.pending)
    (hstopped : s.run.governor.isStopped = r.governor.isStopped)
    (hcontrol : ∀ service releases, s.thread.control ≠ .resume service releases) : s.Heeds side r d t := by
  refine ⟨hpending, fun service releases hresume => absurd hresume (hcontrol service releases),
    fun hbefore => hstopped.trans hbefore, fun hbefore hafter => ?_⟩
  rw [hstopped, hbefore] at hafter
  cases hafter

theorem objection_of_stopped (hstopped : r.governor.isStopped = true) (now : Time) :
    ∃ e, r.objection? now = some e ∧ e.isStop = true := by
  unfold Governor.isStopped at hstopped
  unfold objection?
  cases haborted : r.governor.aborted with
  | some e => exact ⟨.abort e, rfl, rfl⟩
  | none =>
    rw [haborted, Option.isSome_none, Bool.or_false] at hstopped
    rw [hstopped]
    exact ⟨.error { cause := .cancelled }, rfl, rfl⟩

theorem not_stopped_of_objection {now : Time} (h : r.objection? now = none) : r.governor.isStopped = false := by
  rw [← Bool.not_eq_true]
  intro hstopped
  obtain ⟨e, hsome, -⟩ := objection_of_stopped hstopped now
  rw [h] at hsome
  cases hsome

theorem request_heeds (work : Work) : (r.request d side work stack).Heeds side r d ⟨.request work, stack⟩ := by
  unfold request
  split
  · exact heeds_go (fun _ hmem _ => hmem) rfl nofun
  · rename_i hnone
    have hbefore := not_stopped_of_objection hnone
    have hservice : (d.open_ r.id side work).2.service d.services.size = { run := r.id, side, work } := by
      rw [Desk.service_open, if_pos rfl]
    have hsize : d.services.size < (d.open_ r.id side work).2.services.size := by
      rw [Desk.size_open]
      exact Nat.lt_succ_self _
    have hheeds {r' : Run} {d' : Desk} (honward : (d.open_ r.id side work).2.Onward d')
        (hpending : r'.governor.pending = r.governor.pending ++ [d.services.size])
        (hstopped : r'.governor.isStopped = r.governor.isStopped) (releases : Bool) :
        Step.Heeds side r d ⟨.request work, stack⟩ ⟨r', d', ⟨.resume d.services.size releases, stack⟩, .park⟩ := by
      refine ⟨fun service hmem _ => ?_, fun service releases' hcontrol => ?_, fun hstop => ?_, fun _ hafter => ?_⟩
      · rw [hpending]
        exact List.mem_append_left _ hmem
      · cases hcontrol
        obtain ⟨hrun, hside, -⟩ := honward.owner _ hsize
        rw [hservice] at hrun hside
        refine ⟨hstopped.trans hbefore, ?_, Nat.lt_of_lt_of_le hsize honward.size, hrun, hside⟩
        rw [hpending]
        exact List.mem_append_right _ List.mem_cons_self
      · exact hstopped.trans hstop
      · rw [hstopped, hbefore] at hafter
        cases hafter
    cases side with
    | main => refine hheeds (.refl _) ?_ ?_ _ <;> rfl
    | worker =>
      obtain ⟨waiters, hgovernor⟩ := becomeIdle_governor { r with governor := { r.governor with
        pending := r.governor.pending ++ [d.services.size] } } (d.open_ r.id .worker work).2
      exact hheeds (becomeIdle_onward _ _) (congrArg Governor.pending hgovernor :) (congrArg Governor.isStopped hgovernor :) true

theorem resume_heeds (service : ServiceId) (releases interrupted : Bool) :
    (r.resume d service releases interrupted stack).Heeds side r d ⟨.resume service releases, stack⟩ := by
  have herase (other : ServiceId) (hmem : other ∈ r.governor.pending)
      (hother : ∀ releases', Control.resume service releases ≠ .resume other releases') :
      other ∈ r.governor.pending.erase service := by
    refine (List.mem_erase_of_ne ?_).2 hmem
    rintro rfl
    exact hother releases rfl
  unfold resume
  dsimp only
  split
  · exact heeds_go herase rfl nofun
  · split <;> exact heeds_go herase rfl nofun

theorem heeds_interrupt {s : Step} {d' : Desk} (hservices : d'.services = d.services)
    (honward : (d'.interruptAll r.governor.pending).Onward s.desk) (hpending : s.run.governor.pending = r.governor.pending)
    (hstopped : s.run.governor.isStopped = true) (hrest : s.thread.control.atRest = true)
    (hcontrol : ∀ service releases, s.thread.control ≠ .resume service releases) : s.Heeds side r d t := by
  refine ⟨fun service hmem _ => ?_, fun service releases hresume => absurd hresume (hcontrol service releases),
    fun _ => hstopped, fun _ _ => ⟨hrest, fun service hmem hsize => ?_⟩⟩
  · rw [hpending]
    exact hmem
  · rw [← hservices] at hsize
    have hsize' : service < (d'.interruptAll r.governor.pending).services.size :=
      Nat.lt_of_lt_of_le hsize (d'.interruptAll_onward _).size
    exact (d'.interruptAll_spent hmem hsize).later (honward.later hsize')

theorem aborted_isStopped (e : ScriptError) : (r.aborted d e).1.governor.isStopped = true := by
  unfold aborted Governor.isStopped
  cases hcancelled : r.governor.cancelled with
  | true => rfl
  | false =>
    cases haborted : r.governor.aborted with
    | none => rfl
    | some first => rfl

theorem leaveHandler_heeds (result : Except Raised Unit) : (r.leaveHandler d result).Heeds side r d t := by
  obtain ⟨r', d', hjudged, hstep⟩ := r.leaveHandler_judged d result
  obtain ⟨waiters, hgovernor⟩ := r'.handlerFinished_governor d'
  have hrun : (r.leaveHandler d result).run.governor = (r'.handlerFinished d').1.governor := by
    rcases hstep with hstep | hstep <;> rw [hstep] <;> rfl
  have hpending : (r.leaveHandler d result).run.governor.pending = r'.governor.pending := by
    rw [hrun, hgovernor]
  have hstopped : (r.leaveHandler d result).run.governor.isStopped = r'.governor.isStopped := by
    rw [hrun, hgovernor]
    rfl
  have hcontrol (service : ServiceId) (releases : Bool) :
      (r.leaveHandler d result).thread.control ≠ .resume service releases := by
    rcases hstep with hstep | hstep <;> rw [hstep] <;> nofun
  have hrest : (r.leaveHandler d result).thread.control.atRest = true := by
    rcases hstep with hstep | hstep <;> rw [hstep] <;> rfl
  have honward : d'.Onward (r.leaveHandler d result).desk := by
    have hfinished := r'.handlerFinished_onward d'
    rcases hstep with hstep | hstep
    · rw [hstep]
      exact hfinished
    · rw [hstep]
      unfold retire
      dsimp only
      split
      · exact hfinished.trans (Desk.enqueue_onward _ _)
      · exact hfinished
  cases hjudged with
  | well => exact heeds_go (fun _ hmem _ => hpending ▸ hmem) hstopped hcontrol
  | aborted e => exact heeds_interrupt rfl honward hpending (hstopped.trans (aborted_isStopped e)) hrest hcontrol

theorem close_heeds (ending : Ending) : (r.close d ending).Heeds side r d t := by
  have hgovernor := r.close_governor d ending
  have hservices : (r.revoke (d.modifyBox r.id fun b => { b with closed := true })).2.services = d.services := rfl
  refine heeds_interrupt hservices (cancelWorker_onward _ _) ?_ ?_ rfl nofun
  · rw [hgovernor]
  · rw [hgovernor]
    rfl

theorem step_heeds (hfits : t.Fits) (hsided : t.Sided side) : (step side r d t).Heeds side r d t := by
  cases hsided.turn hfits with
  | computes hcomputes =>
    have hcalm := @step_calm side r d t hcomputes
    refine heeds_go (fun _ hmem _ => ?_) (congrArg Governor.isStopped hcalm.alike.governor)
      (Control.not_resume_of_inner hcalm.inner)
    rw [hcalm.alike.governor]
    exact hmem
  | checkpoint stack =>
    simp only [step, checkpoint]
    split
    · exact heeds_go (fun _ hmem _ => hmem) rfl (by rintro _ _ ⟨⟩)
    · split <;> exact heeds_go (fun _ hmem _ => hmem) rfl (by rintro _ _ ⟨⟩)
  | request work stack => exact request_heeds work
  | resume service stack => exact resume_heeds service _ false
  | handled signal => exact leaveHandler_heeds (.ok ())
  | failed e => exact leaveHandler_heeds (.error e)
  | ran signal => exact heeds_go (fun _ hmem _ => hmem) rfl (by rintro _ _ ⟨⟩)
  | stopped e hframe =>
    rcases hframe with rfl | ⟨v, rfl⟩
    · exact close_heeds _
    · exact close_heeds _
  | joined result v =>
    simp only [step, reply]
    split
    · exact close_heeds _
    · exact close_heeds _
  | start =>
    cases side with
    | main =>
      refine heeds_go (fun service hmem _ => ?_) (congrArg Governor.isStopped (r.hoist_governor _)) (by rintro _ _ ⟨⟩)
      change service ∈ (r.hoist _).governor.pending
      rw [hoist_governor]
      exact hmem
    | worker => exact heeds_go (fun _ hmem _ => hmem) rfl (by rintro _ _ ⟨⟩)
  | receive =>
    simp only [step, receive]
    split
    · exact heeds_go (fun _ hmem _ => hmem) rfl (by rintro _ _ ⟨⟩)
    · split
      · exact heeds_go (fun _ hmem _ => hmem) rfl (by rintro _ _ ⟨⟩)
      · split
        · exact heeds_go (fun _ hmem _ => hmem) rfl (by rintro _ _ ⟨⟩)
        · exact heeds_go (fun _ hmem _ => hmem) rfl (by rintro _ _ ⟨⟩)
  | settle ending => exact heeds_go (fun _ hmem _ => hmem) rfl (by rintro _ _ ⟨⟩)
  | finished => exact heeds_go (fun _ hmem _ => hmem) rfl (by rintro _ _ ⟨⟩)

theorem clearing_top {need : Need} (h : Stacked need stack) (hmem : .clearing ∈ stack) :
    ∃ rest, stack = .clearing :: rest := by
  induction stack generalizing need with
  | nil => cases hmem
  | cons frame rest ih =>
    rcases List.mem_cons.1 hmem with rfl | hmem
    · exact ⟨rest, rfl⟩
    obtain ⟨-, -, hbelow⟩ := h
    cases hgives : frame.gives with
    | none =>
      rw [hgives] at hbelow
      obtain rfl : rest = [] := hbelow
      cases hmem
    | some given =>
      rw [hgives] at hbelow
      obtain ⟨rest', rfl⟩ := ih hbelow hmem
      -- No frame gives the next one an answer.
      obtain ⟨hneed, -⟩ := hbelow
      obtain rfl : given = .reply := hneed.symm
      cases frame <;> cases hgives

theorem leaveHandler_late (r : Run) (d : Desk) (result : Except Raised Unit) (d' : Desk) :
    ¬(r.leaveHandler d result).thread.Late d' := by
  intro hlate
  obtain ⟨r', d', -, hstep | hstep⟩ := r.leaveHandler_judged d result
  · rw [hstep] at hlate
    cases hlate
  · rw [hstep] at hlate
    cases hlate

theorem computes_late {e : Raised} (hfits : t.Fits) (hobjection : r.objection? d.host.clock.seconds = some e)
    (hcomputes : t.computes = true) (hlate : (step side r d t).thread.Late (step side r d t).desk) : t.Late d := by
  have hcalm := @step_calm side r d t hcomputes
  have hresume := Control.not_resume_of_inner hcalm.inner
  cases hgate : (step side r d t).thread.control.isGate with
  | false => exact absurd hlate (Thread.not_late hgate hresume)
  | true =>
    have hgrants := hcalm.gate hgate
    obtain ⟨control, stack⟩ := t
    generalize (step side r d ⟨control, stack⟩).thread.control = control' at hgrants
    cases hgrants with
    | checked hnone =>
      rw [hnone] at hobjection
      cases hobjection
    | woken result hmem =>
      obtain ⟨rest, rfl⟩ := clearing_top hfits hmem
      exact .replied result rest
    | passed _ => exact .clear stack
    | performed _ _ => exact .passed stack

/-- In a stopped run a step does not make a thread late that was not. -/
theorem step_late (hfits : t.Fits) (hsided : t.Sided side) (hstopped : r.governor.isStopped = true)
    (hlate : (step side r d t).thread.Late (step side r d t).desk) : t.Late d := by
  obtain ⟨e, hobjection, -⟩ := objection_of_stopped hstopped d.host.clock.seconds
  cases hsided.turn hfits with
  | computes hcomputes => exact computes_late hfits hobjection hcomputes hlate
  | checkpoint stack =>
    simp only [step, checkpoint, hobjection] at hlate
    exact absurd hlate (Thread.not_late rfl (by rintro _ _ ⟨⟩))
  | request work stack =>
    simp only [step, request, hobjection] at hlate
    exact absurd hlate (Thread.not_late rfl (by rintro _ _ ⟨⟩))
  | resume service stack =>
    simp only [step, resume] at hlate
    split at hlate
    · exact absurd hlate (Thread.not_late rfl (by rintro _ _ ⟨⟩))
    · split at hlate
      · exact absurd hlate (Thread.not_late rfl (by rintro _ _ ⟨⟩))
      · rename_i result hanswer hdone
        cases hlate with
        | replied _ rest => exact .waiting _ rest hdone hanswer
      · exact absurd hlate (Thread.not_late rfl (by rintro _ _ ⟨⟩))
  | handled signal => exact absurd hlate (r.leaveHandler_late d (.ok ()) _)
  | failed e => exact absurd hlate (r.leaveHandler_late d (.error e) _)
  | ran signal => exact absurd hlate (Thread.not_late rfl (by rintro _ _ ⟨⟩))
  | stopped e hframe =>
    rcases hframe with rfl | ⟨v, rfl⟩
    · exact absurd hlate (Thread.not_late rfl (by rintro _ _ ⟨⟩))
    · exact absurd hlate (Thread.not_late rfl (by rintro _ _ ⟨⟩))
  | joined result v =>
    simp only [step, reply] at hlate
    split at hlate
    · exact absurd hlate (Thread.not_late rfl (by rintro _ _ ⟨⟩))
    · exact absurd hlate (Thread.not_late rfl (by rintro _ _ ⟨⟩))
  | start => cases side <;> exact absurd hlate (Thread.not_late rfl (by rintro _ _ ⟨⟩))
  | receive =>
    simp only [step, receive] at hlate
    split at hlate
    · exact absurd hlate (Thread.not_late rfl (by rintro _ _ ⟨⟩))
    · split at hlate
      · exact absurd hlate (Thread.not_late rfl (by rintro _ _ ⟨⟩))
      · split at hlate
        · exact absurd hlate (Thread.not_late rfl (by rintro _ _ ⟨⟩))
        · exact absurd hlate (Thread.not_late rfl (by rintro _ _ ⟨⟩))
  | settle ending => exact absurd hlate (Thread.not_late rfl (by rintro _ _ ⟨⟩))
  | finished => exact absurd hlate (Thread.not_late rfl (by rintro _ _ ⟨⟩))

theorem passed_late (hfits : t.Fits) (hpassed : t.control = .passed) (d' : Desk) : ¬(step side r d t).thread.Late d' := by
  obtain ⟨control, stack⟩ := t
  subst hpassed
  cases stack with
  | nil => exact hfits.elim
  | cons frame rest =>
    have hcalm := @step_calm side r d ⟨.passed, frame :: rest⟩ rfl
    have hgrants := hcalm.gate
    have hresume := Control.not_resume_of_inner hcalm.inner
    generalize (step side r d ⟨.passed, frame :: rest⟩).thread = next at hgrants hresume ⊢
    intro hlate
    cases hlate with
    | waiting => exact hresume _ _ rfl
    | replied | clear | passed => cases hgrants rfl

/-- Who asks for leave in a stopped run, or asks again, hears of it. -/
theorem step_hears (hstopped : r.governor.isStopped = true) (hasks : t.control = .checkpoint ∨ t.control = .recheck) :
    ∃ e, (step side r d t).thread.control = .raised e ∧ e.isStop = true := by
  obtain ⟨control, stack⟩ := t
  obtain ⟨e, hobjection, hstop⟩ := objection_of_stopped hstopped d.host.clock.seconds
  refine ⟨e, ?_, hstop⟩
  rcases hasks with rfl | rfl
  · simp only [step, checkpoint, hobjection]
    rfl
  · simp only [step, recheck, hobjection]
    rfl

theorem interruptWorker_heeds (hrested : t.Rested) : (r.interruptWorker d t).Heeds .worker r d t := by
  cases hrested with
  | resume service stack =>
    have hheeds := @resume_heeds .worker { r with workerCancelled := false } d stack service true true
    exact ⟨hheeds.pending, hheeds.opened, hheeds.stays, hheeds.stops⟩
  | recheck stack => exact heeds_go (fun _ hmem _ => hmem) rfl (by rintro _ _ ⟨⟩)
  | @bare control hresume hrecheck =>
    simp only [interruptWorker]
    exact heeds_go (fun _ hmem _ => hmem) rfl (by rintro _ _ ⟨⟩)

theorem interruptWorker_late (hrested : t.Rested) (d' : Desk) : ¬(r.interruptWorker d t).thread.Late d' := by
  intro hlate
  cases hrested with
  | resume service stack => cases hlate
  | recheck stack => cases hlate
  | @bare control hresume hrecheck =>
    simp only [interruptWorker] at hlate
    cases hlate

end Run

namespace Moment

variable {m n o : Moment} {id : RunId} {side : Side}

structure Heeding (id : RunId) (m : Moment) : Prop where
  opened : ∀ side service releases, (m.thread id side).control = .resume service releases →
    service ∈ (m.run id).governor.pending ∧ service < m.desk.services.size ∧ (m.desk.service service).run = id ∧
      (m.desk.service service).side = side
  spent : (m.run id).governor.isStopped = true → ∀ side service releases,
    (m.thread id side).control = .resume service releases → (m.desk.service service).IsSpent
  worker : (m.run id).governor.isStopped = true → ¬(m.thread id .worker).Late m.desk

/-- A worker at rest is not late, for it does not wait for the flag. -/
theorem worker_not_late {t : Thread} {d : Desk} (hsided : t.Sided .worker) (hrest : t.control.atRest = true) : ¬t.Late d := by
  intro hlate
  cases hlate with
  | waiting => exact absurd (hsided.frames .clearing List.mem_cons_self) nofun
  | replied | clear | passed => cases hrest

/-- A thread makes a step that heeds the end of its run. -/
theorem Heeding.acts (h : Heeding id m) (hm : Possible m) (hid : id < m.size) (hn : Move m n) (hacts : Acts id side m n)
    {s : Step} {ready : Queue Ready} (hheeds : s.Heeds side (m.run id) { m.desk with ready } (m.thread id side))
    (hat : n.At id side s) (hother : n.thread id side.other = m.thread id side.other)
    (hback : side = .worker → (m.run id).governor.isStopped = true → s.thread.Late s.desk →
      (m.thread id side).Late m.desk) : Heeding id n := by
  have hnamed := hm.attended.named hid
  have hsides {side' : Side} (hside : side' ≠ side) : n.thread id side' = m.thread id side' := by
    obtain rfl := other_of_ne hside
    exact hother
  -- The two threads of a run never wait for the same service.
  have hown {side' : Side} {service : ServiceId} {releases : Bool} (hside : side' ≠ side)
      (hcontrol : (m.thread id side').control = .resume service releases) (releases' : Bool) :
      (m.thread id side).control ≠ .resume service releases' := by
    intro hsame
    obtain ⟨-, -, -, hserves⟩ := h.opened side' service releases hcontrol
    obtain ⟨-, -, -, hserves'⟩ := h.opened side service releases' hsame
    exact hside (hserves.symm.trans hserves')
  refine ⟨fun side' service releases hcontrol => ?_, fun hstopped side' service releases hcontrol => ?_, fun hstopped => ?_⟩
  · rw [hat.run]
    by_cases hside : side' = side
    · subst hside
      rw [hat.thread] at hcontrol
      obtain ⟨-, hpending, hsize, hrun, hserves⟩ := hheeds.opened service releases hcontrol
      rw [hat.desk]
      exact ⟨hpending, hsize, hrun.trans hnamed, hserves⟩
    · rw [hsides hside] at hcontrol
      obtain ⟨hpending, hsize, hrun, hserves⟩ := h.opened side' service releases hcontrol
      obtain ⟨hsize', hlater⟩ := hn.service hm hsize
      exact ⟨hheeds.pending service hpending (hown hside hcontrol), hsize', hlater.run.trans hrun,
        hlater.side.trans hserves⟩
  · rw [hat.run] at hstopped
    by_cases hside : side' = side
    · subst hside
      rw [hat.thread] at hcontrol
      obtain ⟨hgoing, -⟩ := hheeds.opened service releases hcontrol
      rw [hgoing] at hstopped
      cases hstopped
    · rw [hsides hside] at hcontrol
      obtain ⟨hpending, hsize, -⟩ := h.opened side' service releases hcontrol
      cases hbefore : (m.run id).governor.isStopped with
      | true => exact (h.spent hbefore side' service releases hcontrol).later (hn.service hm hsize).2
      | false =>
        rw [hat.desk]
        exact (hheeds.stops hbefore hstopped).2 service hpending hsize
  · have hsided := (hm.move hn).attended.sided (Nat.lt_of_lt_of_le hid hn.size) .worker
    rw [hat.run] at hstopped
    cases side with
    | worker =>
      cases hbefore : (m.run id).governor.isStopped with
      | true =>
        rw [hat.thread, hat.desk]
        exact fun hlate => h.worker hbefore (hback rfl hbefore hlate)
      | false =>
        refine worker_not_late hsided ?_
        rw [hat.thread]
        exact (hheeds.stops hbefore hstopped).1
    | main => exact worker_not_late hsided (hacts.other_at_rest (hm.move hn).sound)

/-- In a stopped run a service that someone waits for comes to nothing, unless it was done. -/
theorem Heeding.done_before (h : Heeding id m) (hm : Possible m) (hn : Move m n)
    (hstopped : (m.run id).governor.isStopped = true) {service : ServiceId} {releases : Bool}
    (hcontrol : (m.thread id side).control = .resume service releases) {result : ServiceResult}
    (hdone : (n.desk.service service).stage = .done result) (hanswer : result ≠ .interrupted) :
    (m.desk.service service).stage = .done result := by
  obtain ⟨-, hsize, -⟩ := h.opened side service releases hcontrol
  obtain ⟨-, hlater⟩ := hn.service hm hsize
  rcases h.spent hstopped side service releases hcontrol with hcancelled | ⟨result', hdone'⟩
  · exact (hlater.interrupted hcancelled result hdone).resolve_right hanswer
  · have hsame : Stage.done result' = .done result := (hlater.done result' hdone').symm.trans hdone
    exact hdone'.trans hsame

/-- A thread of a stopped run does not become late while others go on. -/
theorem Heeding.late_before (h : Heeding id m) (hm : Possible m) (hn : Move m n)
    (hstopped : (m.run id).governor.isStopped = true) (hthread : n.thread id side = m.thread id side)
    (hlate : (n.thread id side).Late n.desk) : (m.thread id side).Late m.desk := by
  rw [hthread] at hlate
  generalize ht : m.thread id side = t at hlate ⊢
  cases hlate with
  | @waiting service releases stack result hdone hanswer =>
    have hcontrol : (m.thread id side).control = .resume service releases := by rw [ht]
    exact .waiting releases stack (h.done_before hm hn hstopped hcontrol hdone hanswer) hanswer
  | replied result stack => exact .replied result stack
  | clear stack => exact .clear stack
  | passed stack => exact .passed stack

/-- Nothing is done by the run's threads, and what is pending stays so. -/
theorem Heeding.aside (h : Heeding id m) (hm : Possible m) (hn : Move m n)
    (hthreads : ∀ side, n.thread id side = m.thread id side)
    (hpending : (n.run id).governor.pending = (m.run id).governor.pending)
    (hstops : (m.run id).governor.isStopped = false → (n.run id).governor.isStopped = true →
      ∀ service ∈ (m.run id).governor.pending, service < m.desk.services.size → (n.desk.service service).IsSpent)
    (hworker : (n.run id).governor.isStopped = true → ¬(n.thread id .worker).Late n.desk) : Heeding id n := by
  refine ⟨fun side service releases hcontrol => ?_, fun hstopped side service releases hcontrol => ?_, hworker⟩
  · rw [hthreads] at hcontrol
    obtain ⟨hmem, hsize, hrun, hserves⟩ := h.opened side service releases hcontrol
    obtain ⟨hsize', hlater⟩ := hn.service hm hsize
    rw [hpending]
    exact ⟨hmem, hsize', hlater.run.trans hrun, hlater.side.trans hserves⟩
  · rw [hthreads] at hcontrol
    obtain ⟨hmem, hsize, -⟩ := h.opened side service releases hcontrol
    cases hbefore : (m.run id).governor.isStopped with
    | true => exact (h.spent hbefore side service releases hcontrol).later (hn.service hm hsize).2
    | false => exact hstops hbefore hstopped service hmem hsize

theorem Heeding.move (h : Heeding id m) (hm : Possible m) (hid : id < m.size) (hn : Move m n) : Heeding id n := by
  have hfits (side : Side) : (m.thread id side).Fits := hm.sound.thread id side
  have hsided (side : Side) : (m.thread id side).Sided side := hm.attended.sided hid side
  -- The governor says of stopping what it said.
  have hsame (hthreads : ∀ side, n.thread id side = m.thread id side)
      (hpending : (n.run id).governor.pending = (m.run id).governor.pending)
      (hstopped : (n.run id).governor.isStopped = (m.run id).governor.isStopped) : Heeding id n := by
    refine h.aside hm hn hthreads hpending (fun hbefore hafter => ?_) fun hafter hlate => ?_
    · rw [hstopped, hbefore] at hafter
      cases hafter
    · rw [hstopped] at hafter
      exact h.worker hafter (h.late_before hm hn hafter (hthreads .worker) hlate)
  cases hn.share hm.sound hid with
  | step side ready hacts hat hother =>
    refine h.acts hm hid hn hacts (Run.step_heeds (hfits side) (hsided side)) hat hother fun _ hstopped hlate => ?_
    have hbefore := Run.step_late (hfits side) (hsided side) hstopped hlate
    exact hbefore.of_services rfl
  | interrupted ready hacts hrest hat hother =>
    have hrested := (hsided .worker).rested (hfits .worker) hrest
    refine h.acts hm hid hn hacts (Run.interruptWorker_heeds hrested) hat hother fun _ _ hlate => ?_
    exact absurd hlate (Run.interruptWorker_late hrested _)
  | rested main worker ready hrun hdesk hthreads => exact hsame hthreads (by rw [hrun]) (by rw [hrun])
  | served service ready howner hrun hdesk hthreads =>
    obtain ⟨waiters, hgovernor, -⟩ := (m.run id).stepService_governor { m.desk with ready } service
    exact hsame hthreads (by rw [hrun, hgovernor]) (by rw [hrun, hgovernor]; rfl)
  | cancelled hrests hrun hdesk hthreads =>
    refine h.aside hm hn hthreads (by rw [hrun]; rfl) (fun _ _ service hmem hsize => ?_) fun _ => ?_
    · rw [hdesk]
      exact m.desk.interruptAll_spent hmem hsize
    · rw [hthreads]
      exact worker_not_late (hsided .worker) (hrests .worker)
  | aside hrun hthreads => exact hsame hthreads (by rw [hrun]) (by rw [hrun])

theorem Possible.heeding (hm : Possible m) (hid : id < m.size) : Heeding id m := by
  refine hm.run_induction hid (fun hunbegun hthreads => ?_) fun hm hid hn h => h.move hm hid hn
  refine ⟨fun side service releases hcontrol => ?_, fun _ side service releases hcontrol => ?_, fun _ hlate => ?_⟩
  · rw [hthreads] at hcontrol
    cases hcontrol
  · rw [hthreads] at hcontrol
    cases hcontrol
  · rw [hthreads] at hlate
    cases hlate

theorem Move.stopped (hn : Move m n) (hm : Possible m) (hid : id < m.size)
    (hstopped : (m.run id).governor.isStopped = true) : (n.run id).governor.isStopped = true := by
  have hfits (side : Side) : (m.thread id side).Fits := hm.sound.thread id side
  have hsided (side : Side) : (m.thread id side).Sided side := hm.attended.sided hid side
  cases hn.share hm.sound hid with
  | step side ready hacts hat hother =>
    rw [hat.run]
    exact (@Run.step_heeds side (m.run id) { m.desk with ready } _ (hfits side) (hsided side)).stays hstopped
  | interrupted ready hacts hrest hat hother =>
    rw [hat.run]
    exact (@Run.interruptWorker_heeds (m.run id) { m.desk with ready } _
      ((hsided .worker).rested (hfits .worker) hrest)).stays hstopped
  | rested main worker ready hrun hdesk hthreads =>
    rw [hrun]
    exact hstopped
  | served service ready howner hrun hdesk hthreads =>
    obtain ⟨waiters, hgovernor, -⟩ := (m.run id).stepService_governor { m.desk with ready } service
    rw [hrun, hgovernor]
    exact hstopped
  | cancelled hrests hrun hdesk hthreads =>
    rw [hrun]
    rfl
  | aside hrun hthreads =>
    rw [hrun]
    exact hstopped

/-- The main thread of a stopped run is late only if it was when the run was stopped. -/
theorem Moves.late_before (hn : Moves m n) (hm : Possible m) (hid : id < m.size)
    (hstopped : (m.run id).governor.isStopped = true) : (n.run id).governor.isStopped = true ∧
      ((n.thread id .main).Late n.desk → (m.thread id .main).Late m.desk) := by
  induction hn with
  | refl => exact ⟨hstopped, fun hlate => hlate⟩
  | @move n o hmoves hn ih =>
    obtain ⟨hstopped, hbefore⟩ := ih
    have hpossible : Possible n := hm.moves hmoves
    have hsize : id < n.size := Nat.lt_of_lt_of_le hid hmoves.size
    have hheeding := hpossible.heeding hsize
    refine ⟨hn.stopped hpossible hsize hstopped, fun hlate => hbefore ?_⟩
    have hstill (hthread : o.thread id .main = n.thread id .main) : (n.thread id .main).Late n.desk :=
      hheeding.late_before hpossible hn hstopped hthread hlate
    cases hn.share hpossible.sound hsize with
    | step side ready hacts hat hother =>
      cases side with
      | main =>
        rw [hat.thread, hat.desk] at hlate
        have hbefore := Run.step_late (hpossible.sound.thread id .main) (hpossible.attended.sided hsize .main) hstopped hlate
        exact hbefore.of_services rfl
      | worker => exact hstill hother
    | interrupted _ _ _ _ hother => exact hstill hother
    | rested _ _ _ _ _ hthreads | served _ _ _ _ _ hthreads | cancelled _ _ _ hthreads | aside _ hthreads =>
      exact hstill (hthreads .main)

end Moment

/-- However a stopped run goes on: whoever asks for leave, or comes back from a yield, hears of it; its worker has no leave to
begin a statement or a turn of a loop; and its main thread has leave only if it was late when the run was stopped, and
after that never again. -/
theorem stopped_runs_begin_nothing {m n : Moment} (hm : m.Possible) {id : RunId} (hid : id < m.size)
    (hstopped : (m.run id).governor.isStopped = true) (hn : m.Moves n) :
    (∀ side o, Moment.Acts id side n o →
      ((n.thread id side).control = .checkpoint ∨ (n.thread id side).control = .recheck) →
        ∃ e, (o.thread id side).control = .raised e ∧ e.isStop = true) ∧
    (n.thread id .worker).control ≠ .passed ∧
    ((n.thread id .main).control = .passed → (m.thread id .main).Late m.desk ∧
      ∀ o, Moment.Acts id .main n o → ∀ p, o.Moves p → (p.thread id .main).control ≠ .passed) := by
  obtain ⟨hstoppedn, hlate⟩ := hn.late_before hm hid hstopped
  have hnp : n.Possible := hm.moves hn
  have hidn : id < n.size := Nat.lt_of_lt_of_le hid hn.size
  refine ⟨fun side o hacts hasks => ?_, fun hpassed => ?_, fun hpassed => ⟨hlate (Thread.late_of_passed hpassed), ?_⟩⟩
  · obtain ⟨-, ready, -, hat | ⟨rfl, hrest, hat⟩⟩ := hacts.stride hnp.sound
    · rw [hat.thread]
      exact Run.step_hears hstoppedn hasks
    · -- A worker that is interrupted where it has yielded.
      have hrecheck : (n.thread id .worker).control = .recheck := by
        refine hasks.resolve_left fun hcheckpoint => ?_
        rw [hcheckpoint] at hrest
        cases hrest
      refine ⟨.interrupted, ?_, rfl⟩
      rw [hat.thread]
      simp only [Run.interruptWorker, hrecheck]
      rfl
  · exact (hnp.heeding hidn).worker hstoppedn (Thread.late_of_passed hpassed)
  · intro o hacts p hp hpassed'
    have ho : o.Possible := hnp.move hacts.move
    have hido : id < o.size := Nat.lt_of_lt_of_le hidn hacts.move.size
    obtain ⟨-, hbefore⟩ := hp.late_before ho hido (hacts.move.stopped hnp hidn hstoppedn)
    obtain ⟨-, ready, -, hat | ⟨hside, -⟩⟩ := hacts.stride hnp.sound
    · have hnot := hbefore (Thread.late_of_passed hpassed')
      rw [hat.thread] at hnot
      exact Run.passed_late (hnp.sound.thread id .main) hpassed _ hnot
    · cases hside

namespace Moment

def cancel (id : RunId) : Moment → Moment
  | resting w => resting (w.cancel id)
  | within w active side s => within w active side s

theorem Possible.cancel {m : Moment} (hm : Possible m) (id : RunId) : Possible (m.cancel id) := by
  cases m with
  | resting w => exact hm.move (.next (.driven (.cancel w id)))
  | within w active side s => exact hm

end Moment

namespace Lagging

/-- The tokens of `on "t" {print "a"}`, `emit "t"`, and `print "a"` twice, without places. -/
def tokens : List Token :=
  [.keyword .on, .text "t", .symbol .leftBrace, .keyword .print, .text "a", .symbol .rightBrace, .newline, .keyword .emit,
    .text "t", .newline, .keyword .print, .text "a", .newline, .keyword .print, .text "a", .finish].map
    fun content => ⟨content, "", default⟩

def program : Program :=
  ⟨default, [.on default Again.event ⟨default, [Again.print]⟩, Again.emit, Again.print, Again.print], #[]⟩

def world : World := ({} : World).launch "script" program { yieldInterval := 1 } 0 {} .root

theorem world_reachable : (Moment.resting world).Reachable :=
  Moment.launched_reachable tokens rfl (by simp)

def stopped : Moment := ((Moment.resting world).after 50).cancel 0

theorem stopped_possible : stopped.Possible := by
  have hreachable := Moment.after_reachable world_reachable 50
  exact hreachable.possible.cancel 0

theorem stopped_size : 0 < stopped.size := by decide +kernel

theorem stopped_isStopped : (stopped.run 0).governor.isStopped = true := by decide +kernel

def asksLeave : Control → Bool
  | .checkpoint => true
  | _ => false

theorem checkpoint_of_asksLeave {control : Control} (h : asksLeave control = true) : control = .checkpoint := by
  cases control with
  | checkpoint => rfl
  | _ => cases h

theorem stopped_passed : ((stopped.after 3).thread 0 .main).control = .passed :=
  Control.passed_of_hasLeave (by decide +kernel)

end Lagging

/-- The main thread of this run has leave for a statement after the run was cancelled, and begins it. -/
theorem cancelled_run_goes_on : Lagging.stopped.Possible ∧ 0 < Lagging.stopped.size ∧
    (Lagging.stopped.run 0).governor.cancelled = true ∧ Lagging.stopped.Moves (Lagging.stopped.after 3) ∧
    ((Lagging.stopped.after 3).thread 0 .main).control = .passed ∧
    (Lagging.stopped.run 0).output = #["a"] ∧ ((Lagging.stopped.after 7).run 0).output = #["a", "a"] :=
  ⟨Lagging.stopped_possible, Lagging.stopped_size, by decide +kernel, Moment.moves_after _ 3, Lagging.stopped_passed,
    by decide +kernel, by decide +kernel⟩

/-- It was late when it was cancelled; at its next checkpoint it hears of it, and it never has leave again. -/
theorem stopped_runs_begin_nothing_lagging : Lagging.stopped.Possible ∧ 0 < Lagging.stopped.size ∧
    (Lagging.stopped.run 0).governor.isStopped = true ∧ Lagging.stopped.Moves (Lagging.stopped.after 3) ∧
    (Lagging.stopped.thread 0 .main).Late Lagging.stopped.desk ∧
    (∀ p, (Lagging.stopped.after 4).Moves p → (p.thread 0 .main).control ≠ .passed) ∧
    ∃ e, ((Lagging.stopped.after 11).thread 0 .main).control = .raised e ∧ e.isStop = true := by
  have hstopped (k : Nat) := stopped_runs_begin_nothing Lagging.stopped_possible Lagging.stopped_size
    Lagging.stopped_isStopped (Moment.moves_after Lagging.stopped k)
  obtain ⟨-, -, hpassed⟩ := hstopped 3
  obtain ⟨hlate, hnever⟩ := hpassed Lagging.stopped_passed
  obtain ⟨hhears, -⟩ := hstopped 10
  refine ⟨Lagging.stopped_possible, Lagging.stopped_size, Lagging.stopped_isStopped, Moment.moves_after _ 3, hlate, ?_, ?_⟩
  · exact hnever _ (Moment.follow_acts (by decide +kernel))
  · exact hhears .main _ (Moment.follow_acts (by decide +kernel)) (.inl (Lagging.checkpoint_of_asksLeave (by decide +kernel)))

end DeskScript
