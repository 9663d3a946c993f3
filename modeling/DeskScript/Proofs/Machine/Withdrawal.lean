import DeskScript.Proofs.Machine.Delivery
import DeskScript.Proofs.Machine.Enrolment
import DeskScript.Proofs.Machine.Escaping
import DeskScript.Proofs.Machine.Stopping

set_option autoImplicit false

/-!
# Handlers do not outlive their run

When a run closes, its handlers are withdrawn from the bus and its box takes no more mail. Its worker may still be within a
handler then: it hears that it is to stop where it rests, leaves the handler with an error that is never caught, and enrols
nobody on its way. Main statement: `handlers_end_with_run`.
-/

namespace DeskScript

def Mailbox.Shuts (b b' : Mailbox) : Prop := b.closed = true → b'.closed = true ∧ b'.mail.toList = b.mail.toList

theorem Mailbox.Shuts.of_eq {b b' : Mailbox} (h : b' = b) : b.Shuts b' := by
  subst h
  exact fun hclosed => ⟨hclosed, rfl⟩

theorem Mailbox.Shuts.trans {b b' b'' : Mailbox} (h : b.Shuts b') (h' : b'.Shuts b'') : b.Shuts b'' := by
  intro hclosed
  obtain ⟨hclosed', hmail⟩ := h hclosed
  obtain ⟨hclosed'', hmail'⟩ := h' hclosed'
  exact ⟨hclosed'', hmail'.trans hmail⟩

theorem Mailbox.Gets.shuts {mails : List Mail} {b b' : Mailbox} (h : b.Gets mails b') : b.Shuts b' := by
  refine fun hclosed => ⟨h.closed.trans hclosed, ?_⟩
  rw [h.mail, Mailbox.accepted_of_closed hclosed, List.append_nil]

namespace Desk

variable {runs : Nat} {r : Run} {d d' : Desk} {run : RunId}

theorem Op.shuts (hop : Op r d d') (hrun : run < d.boxes.size) (hother : run ≠ r.id) : (d.box run).Shuts (d'.box run) := by
  cases hop with
  | publish event => exact (d.publish_gets hrun event).shuts
  | host | subscribe | revoke | enqueue | open_ => exact .of_eq rfl
  | wake => exact .of_eq ((d.wakeAll_silent _).box run)
  | interrupt ids => exact .of_eq ((d.interruptAll_silent ids).box run)
  | handled => exact .of_eq (d.handled_box_ne hother)
  | box f _ => exact .of_eq (d.box_modifyBox_ne hother f)

theorem ops_shuts (hops : Relation.ReflTransGen (Op r) d d') (hd : d.Orderly runs) (hid : r.id < runs) (hrun : run < runs)
    (hother : run ≠ r.id) : (d.box run).Shuts (d'.box run) := by
  induction hops with
  | refl => exact .of_eq rfl
  | tail hops hop ih => exact ih.trans (hop.shuts ((hd.ops hid hops).boxes ▸ hrun) hother)

end Desk

namespace World

variable {w w' : World} {run : RunId}

theorem start_shuts (hw : w.Orderly) (l : Launch) (hrun : run < w.runs.size) :
    (w.desk.box run).Shuts ((w.start l).2.desk.box run) := by
  obtain ⟨hruns, hdesk⟩ := w.nameFor_same l.name
  have hnamed : (w.nameFor l.name).2.Orderly := hw.withDesk hruns (hdesk ▸ hw.desk) (hdesk ▸ .refl _)
  have hpublish {v : World} (hv : v.Orderly) (hrun : run < v.runs.size) (event : Event) :
      (v.desk.box run).Shuts ((v.publish event).desk.box run) :=
    (v.desk.publish_gets (hv.desk.boxes ▸ hrun) event).shuts
  rw [← hdesk]
  rw [← hruns] at hrun
  simp only [World.start]
  generalize w.nameFor l.name = named at hrun hnamed ⊢
  split
  · split
    · exact ((hpublish hnamed hrun _).trans (hpublish (hnamed.publish _) hrun _)).trans (.of_eq (World.box_addRun _ _ run))
    · exact (hpublish hnamed hrun _).trans (.of_eq (World.box_addRun _ _ run))
  · split
    · exact hpublish hnamed hrun _
    · rename_i r _
      exact (hpublish hnamed hrun _).trans (.of_eq (World.box_addRun _ r run))

theorem Driven.shuts (h : w.Driven w') (hw : w.Orderly) (hrun : run < w.runs.size) :
    (w.desk.box run).Shuts (w'.desk.box run) := by
  cases h with
  | start l => exact start_shuts hw l hrun
  | publish event => exact (w.desk.publish_gets (hw.desk.boxes ▸ hrun) event).shuts
  | @launch name tokens source program hparse limits startedAt heap scopes =>
    exact .of_eq (w.box_launch name program limits startedAt heap scopes run)
  | cancel id => exact (w.cancel_spares id).box.shuts
  | answer p => exact (Desk.answer_spares hw.desk p).box.shuts
  | wait | turn | configure | listen | unlisten | host => exact .of_eq rfl

end World

namespace Moment

variable {m n : Moment} {id : RunId} {side : Side}

/-- A run that acts leaves a closed box of its own as it is. -/
theorem Acts.shuts (hacts : Acts id side m n) (hm : Possible m) (hid : id < m.size) :
    (m.desk.box id).Shuts (n.desk.box id) := by
  have hname := hm.attended.named hid
  obtain ⟨ready, s, hat, -, hmails⟩ := hacts.mails hm hid
  rw [hat.desk]
  rw [← hname]
  cases hmails with
  | posted events hpublished hgets hevents hbusy => exact hgets.shuts
  | began mail rest hside hbare hopen hpop hpublished hbox hbusy hbegins =>
    intro hclosed
    cases hopen.symm.trans hclosed
  | handled hside hbusy hbare hpublished hmail hclosed hunfinished =>
    exact fun hshut => ⟨hclosed.trans hshut, congrArg Queue.toList hmail⟩
  | closed hside hpublished hgets => exact fun _ => hgets.shuts rfl

theorem Acts.shuts_other {other : RunId} (hacts : Acts other side m n) (hm : Possible m) (hid : id < m.size)
    (hne : id ≠ other) : (m.desk.box id).Shuts (n.desk.box id) := by
  have horderly := hm.orderly
  have hother := horderly.acting hacts
  have hname := hm.attended.named hother
  obtain ⟨ready, s, hready, hat, hdeals⟩ := hacts.deals hm hother
  have hrun : (m.run other).id < m.size := Nat.lt_of_le_of_lt (Nat.le_of_eq hname) hother
  have hshuts : (Desk.box { m.desk with ready } id).Shuts (s.desk.box id) :=
    Desk.ops_shuts hdeals.desk (horderly.desk.fewer hready) hrun hid (by rwa [hname])
  rw [hat.desk]
  exact hshuts

theorem Move.shuts (hn : Move m n) (hm : Possible m) (hid : id < m.size) : (m.desk.box id).Shuts (n.desk.box id) := by
  have horderly := hm.orderly
  have hof {other : RunId} {side : Side} (hacts : Acts other side m n) : (m.desk.box id).Shuts (n.desk.box id) := by
    by_cases hsame : id = other
    · subst hsame
      exact hacts.shuts hm hid
    · exact hacts.shuts_other hm hid hsame
  cases hn with
  | reorder _ => exact .of_eq rfl
  | next hn =>
    cases hn with
    | driven hdriven => exact hdriven.shuts ⟨horderly.desk, horderly.idlers⟩ hid
    | waited _ hdesk => exact (Desk.waitForWorld_spares horderly.desk hdesk).box.shuts
    | thread hpop => exact hof (.first hpop)
    | step hpace => exact hof (.step hpace)
    | @entry w entry ready hpop hentry =>
      cases entry with
      | thread run side => exact absurd rfl (hentry run side)
      | gathered | forget | controller => exact .of_eq rfl
      | service service =>
        exact ((w.run (w.desk.service service).run).stepService_gets (w.dequeued ready).desk service id).1.shuts
    | @rest w active working s _ =>
      obtain ⟨ready, hdesk⟩ := w.rest_desk active working s
      refine .of_eq ?_
      change (w.rest active working s).desk.box id = s.desk.box id
      rw [hdesk]
      rfl

end Moment

/-- A worker that begins nothing more once its box is closed: it is over, or looks into its box, or leaves its handler with
an error that is never caught, and is no failure unless the run was aborted, or waits for a service that was interrupted. -/
inductive Thread.Quits (g : Governor) (d : Desk) : Thread → Prop
  | finished : Quits g d ⟨.finished, []⟩
  | receive : Quits g d ⟨.receive, []⟩
  | leaving {e : Raised} (h : e.passes = true) (hfails : e.fails = true → g.aborted ≠ none) (stack : List Frame) :
      Quits g d ⟨.raised e, stack⟩
  | waiting (service : ServiceId) (releases : Bool) (stack : List Frame) (hsize : service < d.services.size)
      (hcancelled : (d.service service).cancelled = true)
      (hdone : ∀ result, (d.service service).stage = .done result → result = .interrupted) :
      Quits g d ⟨.resume service releases, stack⟩

theorem Thread.Quits.later {g g' : Governor} {d d' : Desk} {t : Thread} (h : t.Quits g d) (hfirm : g.Firm g')
    (hservices : ∀ service, service < d.services.size →
      service < d'.services.size ∧ (d.service service).Later (d'.service service)) : t.Quits g' d' := by
  cases h with
  | finished => exact .finished
  | receive => exact .receive
  | leaving hpasses hfails stack => exact .leaving hpasses (fun hfail => hfirm.aborted_ne (hfails hfail)) stack
  | waiting service releases stack hsize hcancelled hdone =>
    obtain ⟨hsize', hlater⟩ := hservices service hsize
    refine .waiting service releases stack hsize' (hlater.cancelled hcancelled) fun result hresult => ?_
    rcases hlater.interrupted hcancelled result hresult with hbefore | hinterrupted
    · exact hdone result hbefore
    · exact hinterrupted

theorem Desk.interrupt_cancels (d : Desk) {service : ServiceId} (hsize : service < d.services.size)
    (hgoes : ∀ result, (d.service service).stage ≠ .done result) :
    ((d.interrupt service).service service).cancelled = true ∧
      ∀ result, ((d.interrupt service).service service).stage ≠ .done result := by
  have hmodify (f : Service → Service) :
      ({ d with services := d.services.modify service f } : Desk).service service = f (d.service service) := by
    rw [service_modify, if_pos ⟨rfl, hsize⟩]
  unfold interrupt
  split
  · rename_i result hdone
    exact absurd hdone (hgoes result)
  · have hservice : (Desk.enqueue { d with services := d.services.modify service fun s =>
        { s with cancelled := true, stage := .woken (.ok .null) } } (.service service)).service service =
        { d.service service with cancelled := true, stage := .woken (.ok .null) } := hmodify _
    rw [hservice]
    exact ⟨rfl, by rintro _ ⟨⟩⟩
  · rw [hmodify]
    exact ⟨rfl, hgoes⟩

structure Step.Quits (r : Run) (t : Thread) (s : Step) : Prop where
  thread : s.thread.Quits s.run.governor s.desk
  run : s.run.subscriptions = r.subscriptions
  bare : t.stack = [] → s.thread.stack = []

namespace Run

variable {r : Run} {d : Desk} {t : Thread} {stack : List Frame}

theorem leaveHandler_quits (result : Except Raised Unit) {t : Thread} (hbusy : t.stack ≠ []) :
    (r.leaveHandler d result).Quits r t := by
  refine ⟨?_, (leaveHandler_abstains result).run, fun hbare => absurd hbare hbusy⟩
  obtain ⟨r', d', -, hstep | hstep⟩ := r.leaveHandler_judged d result
  · rw [hstep]
    exact .receive
  · rw [hstep]
    exact .finished

theorem interruption_fails (r : Run) (h : r.interruption.fails = true) : r.governor.aborted ≠ none := by
  unfold interruption at h
  split at h
  · rename_i e haborted
    rw [haborted]
    rintro ⟨⟩
  · split at h <;> cases h

theorem resume_quits (service : ServiceId) (releases interrupted : Bool)
    (h : interrupted = true ∨ ∀ result, (d.service service).stage = .done result → result = .interrupted) :
    (r.resume d service releases interrupted stack).Quits r ⟨.resume service releases, stack⟩ := by
  have hraised (r : Run) : Thread.Quits r.governor d ⟨.raised r.interruption, stack⟩ :=
    .leaving (interruption_passes r) r.interruption_fails stack
  refine ⟨?_, (resume_abstains service releases interrupted).run, ?_⟩
  · unfold resume
    dsimp only
    split
    · exact hraised _
    · rename_i hgoes
      split
      · exact hraised _
      · rename_i result hanswer hstage
        exact absurd (h.resolve_left hgoes result hstage) hanswer
      · exact hraised _
  · intro hbare
    unfold resume
    dsimp only
    split
    · exact hbare
    · split <;> exact hbare

theorem step_quits (h : t.Quits r.governor d) (hfits : t.Fits) (hsided : t.Sided .worker) (hclosed : (d.box r.id).closed = true) :
    (step .worker r d t).Quits r t := by
  cases h with
  | finished => exact ⟨.finished, rfl, fun _ => rfl⟩
  | receive =>
    have hretire : step .worker r d ⟨.receive, []⟩ = r.retire d := if_pos hclosed
    rw [hretire]
    exact ⟨.finished, rfl, fun _ => rfl⟩
  | waiting service releases stack hsize hcancelled hdone => exact resume_quits service releases false (.inr hdone)
  | @leaving e hpasses hfails stack =>
    cases hsided.turn hfits with
    | failed => exact leaveHandler_quits (.error e) (List.cons_ne_nil _ _)
    | computes hcomputes =>
      cases stack with
      | nil => cases hcomputes
      | cons frame stack =>
        have hground : frame.isGround = false := by rwa [← Bool.not_eq_true']
        obtain ⟨e', depth, hlocated, hstep⟩ := unwind_leaves hpasses hground r d stack
        change (r.unwind d e stack frame).Quits r _
        rw [hstep]
        refine ⟨.leaving (hlocated.passes.trans hpasses) (fun hfail => hfails ?_) stack, rfl,
          fun hbare => absurd hbare (List.cons_ne_nil _ _)⟩
        rw [← hlocated.fails]
        exact hfail

theorem interruptWorker_quits (hrested : t.Rested) : (r.interruptWorker d t).Quits r t := by
  cases hrested with
  | resume service stack =>
    have hquits := @resume_quits { r with workerCancelled := false } d stack service true true (.inl rfl)
    exact ⟨hquits.thread, hquits.run, hquits.bare⟩
  | recheck stack => exact ⟨.leaving rfl (by rintro ⟨⟩) stack, rfl, fun hbare => hbare⟩
  | @bare control hresume hrecheck =>
    simp only [interruptWorker]
    exact ⟨.finished, rfl, fun _ => rfl⟩

theorem cancelWorker_quits (hrest : r.worker.Rested)
    (hopened : ∀ service releases, r.worker.control = .resume service releases → service < d.services.size) :
    (r.cancelWorker d).1.workerCancelled = true ∨
      r.worker.Quits (r.cancelWorker d).1.governor (r.cancelWorker d).2 := by
  obtain ⟨worker, hworker⟩ : ∃ worker, worker = r.worker := ⟨_, rfl⟩
  rw [← hworker] at hrest hopened ⊢
  unfold cancelWorker
  rw [← hworker]
  cases hrest with
  | resume service stack =>
    dsimp only
    split
    · exact .inl rfl
    · rename_i hgoes
      have hsize := hopened service true rfl
      obtain ⟨hcancelled, hdone⟩ := d.interrupt_cancels hsize hgoes
      refine .inr (.waiting service true stack ?_ hcancelled fun result hresult => absurd hresult (hdone result))
      exact Nat.lt_of_lt_of_le hsize (d.interrupt_onward service).size
  | recheck stack => exact .inl rfl
  | @bare control hresume hrecheck =>
    cases control with
    | finished => exact .inr .finished
    | resume service releases => exact absurd rfl (hresume service releases)
    | _ => exact .inl rfl

/-- The worker of a run that closes is told, or quits without being told. -/
theorem close_quits (ending : Ending) (hrest : r.worker.Rested)
    (hopened : ∀ service releases, r.worker.control = .resume service releases → service < d.services.size) :
    (r.close d ending).run.workerCancelled = true ∨
      r.worker.Quits (r.close d ending).run.governor (r.close d ending).desk := by
  let d₁ := (r.revoke (d.modifyBox r.id fun b => { b with closed := true })).2
  let r₂ := ((r.revoke (d.modifyBox r.id fun b => { b with closed := true })).1.cancelled d₁).1
  refine @cancelWorker_quits r₂ (d₁.interruptAll r.governor.pending) hrest fun service releases hresume => ?_
  exact Nat.lt_of_lt_of_le (hopened service releases hresume) (d₁.interruptAll_onward r.governor.pending).size

end Run

namespace Moment

variable {m n : Moment} {id : RunId} {side : Side}

def Told (id : RunId) (m : Moment) : Prop := (m.run id).workerCancelled = true ∧ ∀ w s, m ≠ within w id .worker s

/-- The run keeps no handler at the bus, takes no mail, and its worker goes out. -/
structure Silenced (id : RunId) (m : Moment) : Prop where
  subscriptions : (m.run id).subscriptions = []
  closed : (m.desk.box id).closed = true
  worker : m.Told id ∨ (m.thread id .worker).Quits (m.run id).governor m.desk

theorem Told.move (h : Told id m) (hn : Move m n) (hacts : ¬Acts id .worker m n)
    (hcancelled : (n.run id).workerCancelled = (m.run id).workerCancelled) : Told id n := by
  refine ⟨hcancelled.trans h.1, fun w s hwithin => hacts ?_⟩
  subst hwithin
  exact hn.acts_of_within

/-- While the main thread acts, the worker is where its run has it. -/
theorem Acts.worker_stored (hacts : Acts id .main m n) : m.thread id .worker = (m.run id).worker := by
  cases hacts with
  | first hpop => rfl
  | step hpace => simp only [Moment.thread, Moment.run, if_true]; rfl

theorem Acts.quits (hacts : Acts id .worker m n) (h : Silenced id m) (hm : Possible m) (hid : id < m.size) :
    ∃ s, n.At id .worker s ∧ s.Quits (m.run id) (m.thread id .worker) := by
  have hfits := hm.sound.thread id .worker
  have hsided := hm.attended.sided hid .worker
  rcases h.worker with ⟨htold, haside⟩ | hquits
  · cases hacts with
    | @first w ready hpop =>
      have hat := at_within ((w.dequeued ready).setRun id default) id .worker
        ((w.run id).firstStep (w.dequeued ready).desk .worker)
      refine ⟨_, hat.of_eq (if_pos htold), Run.interruptWorker_quits ?_⟩
      exact hsided.rested hfits ((hm.sound.runs id).rests .worker)
    | @step w s hpace => exact absurd rfl (haside w s)
  · obtain ⟨-, ready, -, hat | ⟨-, hrest, hat⟩⟩ := hacts.stride hm.sound
    · refine ⟨_, hat, Run.step_quits (hquits.later (.of_eq rfl rfl) fun service hsize => ⟨hsize, .refl _⟩) hfits hsided ?_⟩
      rw [hm.attended.named hid]
      exact h.closed
    · exact ⟨_, hat, Run.interruptWorker_quits (hsided.rested hfits hrest)⟩

/-- The main thread of a run that has closed has only to say so. -/
theorem Acts.over_main (hacts : Acts id .main m n) (hm : Possible m) (hover : (m.thread id .main).control.isOver = true) :
    (n.run id).subscriptions = (m.run id).subscriptions ∧ (n.run id).workerCancelled = (m.run id).workerCancelled ∧
      n.thread id .worker = m.thread id .worker := by
  obtain ⟨ready, hat, hworker⟩ := hacts.main_step hm.sound
  rw [hat.run]
  generalize m.thread id .main = t at hover
  obtain ⟨control, stack⟩ := t
  cases control with
  | settle | finished => exact ⟨rfl, rfl, hworker⟩
  | _ => cases hover

theorem Silenced.move (h : Silenced id m) (hm : Possible m) (hid : id < m.size)
    (hover : (m.thread id .main).control.isOver = true) (hn : Move m n) : Silenced id n := by
  have hclosed := (hn.shuts hm hid h.closed).1
  have hservice (service : ServiceId) (hsize : service < m.desk.services.size) := hn.service hm hsize
  by_cases hworker : Acts id .worker m n
  · obtain ⟨s, hat, hquits⟩ := hworker.quits h hm hid
    refine ⟨?_, hclosed, .inr ?_⟩
    · rw [hat.run, hquits.run]
      exact h.subscriptions
    · rw [hat.thread, hat.run, hat.desk]
      exact hquits.thread
  -- The worker stays where it is.
  have hstill (hsubscriptions : (n.run id).subscriptions = [])
      (hcancelled : (n.run id).workerCancelled = (m.run id).workerCancelled)
      (hthread : n.thread id .worker = m.thread id .worker) : Silenced id n := by
    refine ⟨hsubscriptions, hclosed, h.worker.imp (fun htold => htold.move hn hworker hcancelled) fun hquits => ?_⟩
    rw [hthread]
    exact hquits.later (hn.firm hm hid) hservice
  cases hn.share hm.sound hid with
  | step side ready hacts hat hother =>
    cases side with
    | worker => exact absurd hacts hworker
    | main =>
      obtain ⟨hsubscriptions, hcancelled, hthread⟩ := hacts.over_main hm hover
      exact hstill (hsubscriptions.trans h.subscriptions) hcancelled hthread
  | interrupted ready hacts => exact absurd hacts hworker
  | rested main worker ready hrun hdesk hthreads =>
    rw [hrun] at hstill
    exact hstill h.subscriptions rfl (hthreads .worker)
  | served service ready howner hrun hdesk hthreads =>
    have hidles := (m.run id).stepService_idles { m.desk with ready } service
    rw [hrun] at hstill
    exact hstill (hidles.subscriptions.trans h.subscriptions) hidles.workerCancelled (hthreads .worker)
  | cancelled hrests hrun hdesk hthreads =>
    rw [hrun] at hstill
    exact hstill rfl rfl (hthreads .worker)
  | aside hrun hthreads =>
    rw [hrun] at hstill
    exact hstill h.subscriptions rfl (hthreads .worker)

theorem Possible.silenced (hm : Possible m) (hid : id < m.size) (hover : (m.thread id .main).control.isOver = true) :
    Silenced id m := by
  refine hm.over_induction (P := Silenced) hid ?_ (fun hm hid hn hover h => h.move hm hid hover hn) hover
  intro m n id ready ending hm hid hacts _ hat hworker
  have hname := hm.attended.named hid
  have hstored := hacts.worker_stored
  have hfits := hm.sound.thread id .worker
  have hsided := hm.attended.sided hid .worker
  have hopened := (hm.heeding hid).opened .worker
  have hrested := hsided.rested hfits (hacts.other_rests hm.sound)
  refine ⟨?_, ?_, ?_⟩
  · rw [hat.run]
    exact (Run.close_withdraws _ _ _).1
  · have hrun : (m.run id).id < m.desk.boxes.size := by
      rw [hname, hm.orderly.desk.boxes]
      exact hid
    obtain ⟨-, hgets⟩ := @Run.close_gets (m.run id) { m.desk with ready } hrun ending
    rw [hname] at hgets
    rw [hat.desk]
    exact hgets.closed
  · rw [hworker, hat.desk, Told, hat.run, hstored]
    rw [hstored] at hrested hopened
    refine (Run.close_quits ending hrested fun service releases hresume => ?_).imp_left fun hcancelled => ⟨hcancelled, ?_⟩
    · exact (hopened service releases hresume).2.1
    · rintro w s rfl
      cases hacts

theorem Possible.lt_size_of_program (hm : Possible m) (hprogram : (m.run id).program.isSome = true) : id < m.size := by
  have hknown {w : World} (hprogram : (w.run id).program.isSome = true) : id < w.runs.size := by
    refine Nat.lt_of_not_le fun hout => ?_
    rw [World.run, Array.getD_eq_getD_getElem?, Array.getElem?_eq_none hout] at hprogram
    cases hprogram
  cases m with
  | resting w => exact hknown hprogram
  | within w active working s =>
    by_cases hactive : id = active
    · exact hm.orderly.active id (congrArg some hactive.symm)
    · simp only [Moment.run, if_neg hactive] at hprogram
      exact hknown hprogram

theorem Silenced.starts_nothing (h : Silenced id m) (hm : Possible m) (hid : id < m.size) (hn : Move m n) :
    started id m n = [] := by
  by_cases hworker : Acts id .worker m n
  · obtain ⟨s, hat, hquits⟩ := hworker.quits h hm hid
    by_cases hbare : (m.thread id .worker).stack = []
    · refine started_of_bare ?_
      rw [hat.thread]
      exact hquits.bare hbare
    · exact started_of_busy hbare
  have hthread : n.thread id .worker = m.thread id .worker := by
    by_cases hmain : Acts id .main m n
    · obtain ⟨-, -, hother⟩ := hmain.main_step hm.sound
      exact hother
    · have hnone (side : Side) : ¬Acts id side m n := by
        cases side with
        | main => exact hmain
        | worker => exact hworker
      exact (hn.stands hm.sound hid hnone).1 .worker
  exact started_of_iff (by rw [hthread])

/-- The subscription is ended by whom it belongs to: a run ends its handlers, all others are ended from outside. -/
inductive Withdraws (s : Subscription Listener) : Moment → Moment → Prop
  | owner {m n : Moment} (id : RunId) (body : Block Stmt) (scope : ScopeId) (h : s.listener = .handler id body scope)
      (hends : Ends id m n) : Withdraws s m n
  | outside (w : World) : Withdraws s (resting w) (resting { w with desk := { w.desk with host :=
      { w.desk.host with bus := w.desk.host.bus.unsubscribe s.token } } })

theorem Move.withdraws {s : Subscription Listener} (hn : Move m n) (hm : Possible m) (h : Enrolled m)
    (hs : s ∈ m.desk.host.bus.subscriptions) : s ∈ n.desk.host.bus.subscriptions ∨ Withdraws s m n := by
  have hlisted {bus : Bus Listener} (hbus : n.desk.host.bus.roster = bus.roster) (hmem : s ∈ bus.subscriptions) :
      s ∈ n.desk.host.bus.subscriptions := by
    obtain ⟨-, hsubs⟩ := Prod.mk.inj hbus
    rwa [hsubs]
  cases hn.enrols hm with
  | same hbus _ => exact .inl (hlisted hbus hs)
  | added id hid pattern body scope _ hbus _ _ => exact .inl (hlisted hbus (List.mem_append_left _ hs))
  | listened pattern _ hbus _ => exact .inl (hlisted hbus (List.mem_append_left _ hs))
  | withdrawn id hid hends hbus _ _ =>
    by_cases hmem : s.token ∈ (m.run id).subscriptions
    · obtain ⟨-, hown⟩ := h.kept id hid s.token hmem
      obtain ⟨body, scope, hlistener⟩ := hown s hs rfl
      exact .inr (.owner id body scope hlistener hends)
    · left
      obtain ⟨-, hsubs⟩ := Prod.mk.inj (hbus.trans (Bus.unsubscribeAll_roster _ _))
      rw [hsubs]
      refine List.mem_filter.2 ⟨hs, ?_⟩
      rw [List.contains_eq_mem, decide_eq_false hmem]
      rfl
  | unlistened w token hmoment hnext =>
    subst hmoment
    subst hnext
    by_cases htoken : s.token = token
    · subst htoken
      exact .inr (.outside w)
    · exact .inl (List.mem_filter.2 ⟨hs, bne_iff_ne.2 htoken⟩)

theorem Moves.withdraws {s : Subscription Listener} (hn : Moves m n) (hm : Possible m) (h : Enrolled m)
    (hs : s ∈ m.desk.host.bus.subscriptions) :
    s ∈ n.desk.host.bus.subscriptions ∨ ∃ a b, Moves m a ∧ Move a b ∧ Withdraws s a b ∧ Moves b n := by
  induction hn with
  | refl => exact .inl hs
  | @move n o hmoves hn ih =>
    rcases ih with hs | ⟨a, b, ha, hb, hwithdraws, hmoves'⟩
    · refine (hn.withdraws (hm.moves hmoves) (h.moves hm hmoves) hs).imp_right fun hwithdraws => ?_
      exact ⟨n, o, hmoves, hn, hwithdraws, .refl o⟩
    · exact .inr ⟨a, b, ha, hb, hwithdraws, hmoves'.move hn⟩

theorem Enrolled.none_of_nil (h : Enrolled m) (hnone : (m.run id).subscriptions = []) :
    ∀ s ∈ m.desk.host.bus.subscriptions, ∀ body scope, s.listener ≠ .handler id body scope := by
  intro s hs body scope hlistener
  have hmem := h.own s hs id body scope hlistener
  rw [hnone] at hmem
  cases hmem

end Moment

/-- In every interleaving, on a bus that others may have subscriptions at. When the run of a program has ended, no handler of
it is on the bus, then or ever after; no event that is published puts mail into its box, and no move starts a handler of it
or gives its worker leave for a statement. A subscription stays on the bus until its owner ends it. When a run that has not
ended is cancelled, all its handlers leave the bus at once. -/
theorem handlers_end_with_run {host : Host} {config : Config} {holds : List Frame → Bool}
    (hlisteners : ∀ s ∈ host.bus.subscriptions, ∀ run body scope, s.listener ≠ .handler run body scope)
    (hnumbers : ∀ s ∈ host.bus.subscriptions, s.token < host.bus.nextToken) {m : Moment}
    (hm : Moment.Moves (.resting { desk := { host }, config, holds }) m) :
    (∀ id, (m.run id).program.isSome = true → (m.run id).ending.isSome = true → ∀ n, m.Moves n →
      (∀ s ∈ n.desk.host.bus.subscriptions, ∀ body scope, s.listener ≠ .handler id body scope) ∧
      (n.thread id .worker).control ≠ .passed ∧
      ∀ o, n.Move o → (o.desk.box id).mail.toList = (n.desk.box id).mail.toList ∧ Moment.started id n o = []) ∧
    (∀ s ∈ m.desk.host.bus.subscriptions, ∀ n, m.Moves n → s ∈ n.desk.host.bus.subscriptions ∨
      ∃ a b, m.Moves a ∧ a.Move b ∧ Moment.Withdraws s a b ∧ b.Moves n) ∧
    (∀ w id, m = .resting w → (w.run id).program.isSome = true → (w.run id).ending = none →
      ∀ s ∈ (w.cancel id).desk.host.bus.subscriptions, ∀ body scope, s.listener ≠ .handler id body scope) := by
  have hfresh : Moment.Possible (.resting { desk := { host }, config, holds }) := .fresh host config holds hlisteners
  have henrolled {n : Moment} (hn : Moment.Moves (.resting { desk := { host }, config, holds }) n) : n.Enrolled :=
    Moment.Enrolled.moves (.fresh host config holds hlisteners hnumbers) hfresh hn
  have hpossible := hfresh.moves hm
  refine ⟨fun id hprogram hended n hn => ?_, fun s hs n hn => ?_, fun w id hmoment hprogram hopen => ?_⟩
  · have hid := hpossible.lt_size_of_program hprogram
    have hover := hn.over hpossible hid (hpossible.over_of_ended hid hprogram hended)
    have hnp := hpossible.moves hn
    have hidn := Nat.lt_of_lt_of_le hid hn.size
    have hsilenced := hnp.silenced hidn hover
    have hstopped : (n.run id).governor.isStopped = true := by
      rw [Governor.isStopped, hnp.cancelled_of_over hidn hover]
      rfl
    refine ⟨(henrolled (hm.trans hn)).none_of_nil hsilenced.subscriptions, fun hpassed => ?_, fun o ho => ?_⟩
    · exact (hnp.heeding hidn).worker hstopped (Thread.late_of_passed hpassed)
    · exact ⟨(ho.shuts hnp hidn hsilenced.closed).2, hsilenced.starts_nothing hnp hidn ho⟩
  · exact hn.withdraws hpossible (henrolled hm) hs
  · subst hmoment
    have hcancelled := henrolled (hm.move (.next (.driven (.cancel w id))))
    refine hcancelled.none_of_nil (w.subscriptions_cancel ?_)
    rw [hopen, Option.isNone_eq_false_iff.2 hprogram]
    decide

namespace Leaving

def host : Host := { bus := (({} : Bus Listener).subscribe "*" .recorder).2 }

def world : World := { desk := { host } }

def launched : Moment := .resting (world.launch "script" Hearing.program {} 0 {} .root)

def ended : Moment := launched.after 67

theorem ended_moves : Moment.Moves (.resting { desk := { host }, config := {} }) ended := by
  have hlaunched : Moment.Moves (.resting world) launched :=
    .move (.refl _) (.next (.driven (@World.Driven.launch _ "script" Hearing.tokens none Hearing.program rfl _ 0 {} .root)))
  exact hlaunched.trans (Moment.moves_after launched 67)

end Leaving

/-- The handler of this run is on the bus while it runs; when it has ended, only the listener of the host is. -/
theorem handlers_end_with_run_leaving :
    (∀ s ∈ Leaving.host.bus.subscriptions, ∀ run body scope, s.listener ≠ .handler run body scope) ∧
    (∀ s ∈ Leaving.host.bus.subscriptions, s.token < Leaving.host.bus.nextToken) ∧
    Moment.Moves (.resting { desk := { host := Leaving.host }, config := {} }) Leaving.ended ∧
    (Leaving.ended.run 0).program.isSome = true ∧ (Leaving.ended.run 0).ending.isSome = true ∧
    ((Leaving.launched.after 8).desk.host.bus.subscriptions.map (·.token)) = [1, 2] ∧
    (Leaving.ended.desk.host.bus.subscriptions.map (·.token)) = [1] ∧
    ∀ n, Leaving.ended.Moves n → ∀ s ∈ n.desk.host.bus.subscriptions, ∀ body scope, s.listener ≠ .handler 0 body scope := by
  have hlisteners : ∀ s ∈ Leaving.host.bus.subscriptions, ∀ run body scope, s.listener ≠ .handler run body scope := by
    intro s hs run body scope
    obtain rfl := List.mem_singleton.1 hs
    rintro ⟨⟩
  have hnumbers : ∀ s ∈ Leaving.host.bus.subscriptions, s.token < Leaving.host.bus.nextToken := by
    intro s hs
    obtain rfl := List.mem_singleton.1 hs
    decide
  have hprogram : (Leaving.ended.run 0).program.isSome = true := by decide +kernel
  have hended : (Leaving.ended.run 0).ending.isSome = true := by decide +kernel
  obtain ⟨hgone, -, -⟩ := handlers_end_with_run hlisteners hnumbers Leaving.ended_moves
  refine ⟨hlisteners, hnumbers, Leaving.ended_moves, hprogram, hended, by decide +kernel, by decide +kernel, fun n hn => ?_⟩
  exact (hgone 0 hprogram hended n hn).1

end DeskScript
