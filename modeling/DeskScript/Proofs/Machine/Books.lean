import DeskScript.Proofs.Machine.Carrying
import DeskScript.Proofs.Machine.Farewells
import DeskScript.Proofs.Machine.Stopping

set_option autoImplicit false

/-!
# The books of the services

A service is opened by the thread that asks for it, and interrupted only when its run is stopped: a run keeps account of
the services that its threads wait for, and of no others. Main statements: `Moment.Move.opened`, `Moment.Possible.books`,
`Moment.Open.unique`, `Moment.Possible.services_main`.
-/

namespace DeskScript

namespace Desk

structure Marks (P : ServiceId → Prop) (d d' : Desk) : Prop where
  size : d'.services.size = d.services.size
  cancelled : ∀ service, (d'.service service).cancelled = true → (d.service service).cancelled = true ∨ P service

variable {P Q : ServiceId → Prop} {d d' d'' : Desk}

namespace Marks

theorem of_services (h : d'.services = d.services) : d.Marks P d' := by
  refine ⟨congrArg Array.size h, fun service hcancelled => .inl ?_⟩
  rwa [Desk.service, h] at hcancelled

theorem refl (d : Desk) : d.Marks P d := of_services rfl

theorem trans (h : d.Marks P d') (h' : d'.Marks P d'') : d.Marks P d'' :=
  ⟨h'.size.trans h.size, fun service hcancelled => (h'.cancelled service hcancelled).elim (h.cancelled service) .inr⟩

theorem after (h : d'.Marks P d'') (hservices : d'.services = d.services) : d.Marks P d'' :=
  (of_services hservices).trans h

theorem mono (h : d.Marks P d') (hPQ : ∀ service, P service → Q service) : d.Marks Q d' :=
  ⟨h.size, fun service hcancelled => (h.cancelled service hcancelled).imp_right (hPQ service)⟩

theorem modify (id : ServiceId) {f : Service → Service}
    (hf : ∀ s : Service, (f s).cancelled = true → s.cancelled = true ∨ P id) :
    d.Marks P { d with services := d.services.modify id f } := by
  refine ⟨Array.size_modify, fun service hcancelled => ?_⟩
  rw [service_modify] at hcancelled
  split at hcancelled
  · rename_i hsame
    rw [hsame.1]
    exact hf _ hcancelled
  · exact .inl hcancelled

theorem enqueue (entry : Ready) : d.Marks P (d.enqueue entry) := of_services rfl

theorem foldl {f : Desk → ServiceId → Desk} {ids : List ServiceId}
    (hf : ∀ d : Desk, ∀ id ∈ ids, d.Marks P (f d id)) (d : Desk) : d.Marks P (ids.foldl f d) := by
  induction ids generalizing d with
  | nil => exact .refl d
  | cons id ids ih =>
    exact (hf d id List.mem_cons_self).trans (ih (fun d id hid => hf d id (List.mem_cons_of_mem _ hid)) (f d id))

theorem wake (id : ServiceId) (r : Except Fault Plain) : d.Marks P (d.wake id r) := by
  unfold Desk.wake
  split
  · refine (modify id (f := fun s => { s with stage := .woken r }) fun s h => .inl h).trans (enqueue _)
  · exact .refl d

theorem wakeAll (ids : List ServiceId) : d.Marks P (d.wakeAll ids) := foldl (fun _ id _ => wake id _) d

theorem interrupt {id : ServiceId} (h : P id) : d.Marks P (d.interrupt id) := by
  unfold Desk.interrupt
  split
  · exact .refl d
  · exact (modify id fun s _ => .inr h).trans (enqueue _)
  · exact modify id fun s _ => .inr h

theorem interruptAll {ids : List ServiceId} (h : ∀ id ∈ ids, P id) : d.Marks P (d.interruptAll ids) :=
  foldl (fun _ id hid => interrupt (h id hid)) d

theorem handled (run : RunId) : d.Marks P (d.handled run) := by
  have hbox (f : Mailbox → Mailbox) : d.Marks P (d.modifyBox run f) := of_services rfl
  simp only [Desk.handled]
  split
  · exact (hbox _).trans (wakeAll _)
  · exact hbox _

theorem deed {run : RunId} (h : d.Deed run d') : d.Marks P d' := by
  cases h with
  | host | subscribe => exact of_services rfl
  | publish event _ => exact of_services (d.publish_services event)

theorem answer (p : Plain) : d.Marks P (d.answer p) := by
  unfold Desk.answer
  split
  · exact of_services rfl
  · refine Marks.trans ?_ (wake _ _)
    exact of_services rfl

theorem waited (h : d.waitForWorld? = some d') : d.Marks P d' := by
  unfold waitForWorld? at h
  split at h
  · cases h
    exact after (wake _ _) rfl
  · split at h
    · cases h
    · cases h
      exact after (wake _ _) rfl

end Marks

theorem lt_of_cancelled {service : ServiceId} (h : (d.service service).cancelled = true) : service < d.services.size := by
  refine Nat.lt_of_not_le fun hsize => ?_
  rw [service_absent hsize] at h
  cases h

end Desk

theorem Run.Serves.marks {P : ServiceId → Prop} {r r' : Run} {d d' : Desk} {service : ServiceId}
    (h : r.Serves d service r' d') : d.Marks P d' := by
  refine ⟨h.size, fun other hcancelled => .inl ?_⟩
  by_cases hsame : other = service
  · subst hsame
    exact h.cancelled.symm.trans hcancelled
  · rwa [h.others other hsame] at hcancelled

/-- A service that a thread of the run waits for, as far as the thread knows that makes a step. -/
def Run.Awaits (r : Run) (side : Side) (service : ServiceId) : Prop :=
  service ∈ r.governor.pending ∨ side = .main ∧ ∃ releases, r.worker.control = .resume service releases

/-- What a step means for the services: one is opened if the thread asks for it, and those that the run waits for are
interrupted if it is stopped. -/
structure Step.Books (side : Side) (r : Run) (d : Desk) (t : Thread) (s : Step) : Prop where
  opened : s.desk.services.size = d.services.size ∨ ∃ work, t.control = .request work ∧
    s.desk.services.size = d.services.size + 1 ∧ (s.desk.service d.services.size).run = r.id ∧
    (s.desk.service d.services.size).side = side ∧ (s.desk.service d.services.size).work = work
  cancelled : ∀ service, (s.desk.service service).cancelled = true →
    (d.service service).cancelled = true ∨ s.run.governor.isStopped = true ∧ r.Awaits side service
  pending : ∀ service ∈ s.run.governor.pending, service ∈ r.governor.pending ∨
    service = d.services.size ∧ s.desk.services.size = d.services.size + 1

namespace Run

variable {side : Side} {r r' : Run} {d d' : Desk} {t : Thread} {stack : List Frame}

theorem books_of {s : Step}
    (hmarks : d.Marks (fun service => s.run.governor.isStopped = true ∧ r.Awaits side service) s.desk)
    (hpending : s.run.governor.pending ⊆ r.governor.pending) : s.Books side r d t :=
  ⟨.inl hmarks.size, hmarks.cancelled, fun _ hmem => .inl (hpending hmem)⟩

theorem books_same {s : Step}
    (hmarks : d.Marks (fun service => s.run.governor.isStopped = true ∧ r.Awaits side service) s.desk)
    (hpending : s.run.governor.pending = r.governor.pending) : s.Books side r d t :=
  books_of hmarks fun _ hmem => hpending ▸ hmem

theorem becomeIdle_marks (r : Run) (d : Desk) {P : ServiceId → Prop} : d.Marks P (r.becomeIdle d).2 := by
  unfold becomeIdle
  split
  · exact .refl d
  · exact .wakeAll _

theorem request_books (work : Work) : (r.request d side work stack).Books side r d ⟨.request work, stack⟩ := by
  unfold request
  split
  · exact books_same (.refl d) rfl
  have hsize := d.size_open r.id side work
  have hopened : (d.open_ r.id side work).2.service d.services.size = { run := r.id, side, work } := by
    rw [Desk.service_open, if_pos rfl]
  -- what follows the opening opens and interrupts nothing
  have hbooks {s : Step} (honward : (d.open_ r.id side work).2.Onward s.desk)
      (hmarks : (d.open_ r.id side work).2.Marks (fun _ => False) s.desk)
      (hpending : s.run.governor.pending = r.governor.pending ++ [d.services.size]) :
      s.Books side r d ⟨.request work, stack⟩ := by
    have howner := honward.owner d.services.size (hsize ▸ Nat.lt_succ_self _)
    rw [hopened] at howner
    refine ⟨.inr ⟨work, rfl, hmarks.size.trans hsize, howner.1, howner.2.1, howner.2.2⟩, fun service hcancelled => .inl ?_,
      fun service hmem => ?_⟩
    · have hbefore := (hmarks.cancelled service hcancelled).resolve_right fun h => h
      rw [Desk.service_open] at hbefore
      split at hbefore
      · cases hbefore
      · exact hbefore
    · rw [hpending] at hmem
      refine (List.mem_append.1 hmem).imp_right fun hnew => ⟨List.mem_singleton.1 hnew, hmarks.size.trans hsize⟩
  cases side with
  | main => exact hbooks (.refl _) (.refl _) rfl
  | worker =>
    have hgovernor := becomeIdle_governor { r with governor := { r.governor with
      pending := r.governor.pending ++ [d.services.size] } } (d.open_ r.id .worker work).2
    obtain ⟨waiters, hgovernor⟩ := hgovernor
    exact hbooks (becomeIdle_onward _ _) (becomeIdle_marks _ _) (congrArg Governor.pending hgovernor :)

theorem resume_books (service : ServiceId) (releases interrupted : Bool) :
    (r.resume d service releases interrupted stack).Books side r d t := by
  unfold resume
  dsimp only
  split
  · exact books_of (.refl d) List.erase_subset
  · split <;> exact books_of (.refl d) List.erase_subset

theorem retire_marks (r : Run) (d : Desk) {P : ServiceId → Prop} : d.Marks P (r.retire d).desk := by
  unfold retire
  dsimp only
  split
  · exact .enqueue _
  · exact .refl d

theorem leaveHandler_books (result : Except Raised Unit) : (r.leaveHandler d result).Books side r d t := by
  obtain ⟨r', d', hjudged, hstep⟩ := r.leaveHandler_judged d result
  obtain ⟨waiters, hgovernor⟩ := r'.handlerFinished_governor d'
  have hfinished {P : ServiceId → Prop} : d'.Marks P (r'.handlerFinished d').2 :=
    (becomeIdle_marks _ d').trans (.handled _)
  have hstopped : (r'.handlerFinished d').1.governor.isStopped = r'.governor.isStopped := by
    rw [hgovernor]
    rfl
  have hpending : (r'.handlerFinished d').1.governor.pending = r.governor.pending := by
    rw [hgovernor]
    cases hjudged <;> rfl
  have hjudges :
      d.Marks (fun service => (r'.handlerFinished d').1.governor.isStopped = true ∧ r.Awaits side service) d' := by
    rw [hstopped]
    cases hjudged with
    | well => exact .refl d
    | aborted e => exact .interruptAll fun service hmem => ⟨aborted_isStopped e, .inl hmem⟩
  rcases hstep with hstep | hstep
  · rw [hstep]
    exact books_same (hjudges.trans hfinished) hpending
  · rw [hstep]
    exact books_same ((hjudges.trans hfinished).trans (retire_marks _ _)) hpending

theorem cancelWorker_marks (r : Run) (d : Desk) {P : ServiceId → Prop}
    (h : ∀ service releases, r.worker.control = .resume service releases → P service) :
    d.Marks P (r.cancelWorker d).2 := by
  have hbox (f : Mailbox → Mailbox) : d.Marks P (d.modifyBox r.id f) := .of_services rfl
  unfold cancelWorker
  split
  · exact .enqueue _
  · rename_i service releases hresume
    split
    · exact .refl d
    · exact .interrupt (h service releases hresume)
  · dsimp only
    split
    · exact (hbox _).trans (.enqueue _)
    · exact hbox _

theorem close_books (ending : Ending) : (r.close d ending).Books .main r d t := by
  have hgovernor := r.close_governor d ending
  have hstopped : (r.close d ending).run.governor.isStopped = true := by
    rw [hgovernor]
    rfl
  refine books_same ?_ (congrArg Governor.pending hgovernor :)
  rw [hstopped]
  have hrevoked {P : ServiceId → Prop} :
      d.Marks P (r.revoke (d.modifyBox r.id fun b => { b with closed := true })).2 := .of_services rfl
  refine (hrevoked.trans (.interruptAll ?_)).trans (cancelWorker_marks _ _ ?_)
  · exact fun service hmem => ⟨rfl, .inl hmem⟩
  · exact fun service releases hresume => ⟨rfl, .inr ⟨rfl, releases, hresume⟩⟩

theorem step_books (hfits : t.Fits) (hsided : t.Sided side) : (step side r d t).Books side r d t := by
  cases hsided.turn hfits with
  | computes hcomputes =>
    have hcalm := @step_calm side r d t hcomputes
    exact books_same (.deed hcalm.deed) (congrArg Governor.pending hcalm.alike.governor)
  | checkpoint stack =>
    simp only [step, checkpoint]
    split
    · exact books_same (.refl d) rfl
    · split <;> exact books_same (.refl d) rfl
  | request work stack => exact request_books work
  | resume service stack => exact resume_books service _ false
  | handled signal => exact leaveHandler_books (.ok ())
  | failed e => exact leaveHandler_books (.error e)
  | ran signal => exact books_same (.refl d) rfl
  | stopped e hframe =>
    rcases hframe with rfl | ⟨v, rfl⟩
    · exact close_books _
    · exact close_books _
  | joined result v =>
    simp only [step, reply]
    split
    · exact close_books _
    · exact close_books _
  | start =>
    cases side with
    | main => exact books_same (.enqueue _) (congrArg Governor.pending (r.hoist_governor _))
    | worker => exact books_same (.refl d) rfl
  | receive =>
    simp only [step, receive]
    split
    · exact books_same (retire_marks r d) rfl
    · split
      · exact books_same (.of_services rfl) rfl
      · split
        · exact books_same (.of_services rfl) rfl
        · exact books_same (.of_services rfl) rfl
  | settle ending =>
    refine books_same ?_ rfl
    simp only [step, settle]
    split
    · exact .of_services (d.publish_services _)
    · exact .refl d
  | finished => exact books_same (.refl d) rfl

theorem interruptWorker_books (hrested : t.Rested) : (r.interruptWorker d t).Books side r d t := by
  cases hrested with
  | resume service stack =>
    simp only [interruptWorker, resume, if_true]
    exact books_of (.refl d) List.erase_subset
  | recheck stack => exact books_same (.refl d) rfl
  | @bare control hresume hrecheck =>
    simp only [interruptWorker]
    exact books_same (retire_marks _ d) rfl

end Run

namespace World

variable {w w' : World} {P : ServiceId → Prop}

theorem start_marks (w : World) (l : Launch) : w.desk.Marks P (w.start l).2.desk := by
  obtain ⟨-, hdesk⟩ := w.nameFor_same l.name
  have hpublish (w : World) (event : Event) : w.desk.Marks P (w.publish event).desk :=
    .of_services (w.desk.publish_services event)
  have hadd (w : World) (r : Run) : w.desk.Marks P (w.addRun r).desk := .of_services rfl
  simp only [World.start]
  generalize w.nameFor l.name = named at hdesk ⊢
  have hnamed (event : Event) : w.desk.Marks P (named.2.publish event).desk := hdesk ▸ hpublish named.2 event
  split
  · split
    · exact ((hnamed _).trans (hpublish _ _)).trans (hadd _ _)
    · exact (hnamed _).trans (hadd _ _)
  · split
    · exact hnamed _
    · exact ((hnamed _).trans (hadd _ _)).trans (.enqueue _)

theorem cancel_marks (w : World) (id : RunId) : w.desk.Marks (fun service => id < w.runs.size ∧
    service ∈ (w.run id).governor.pending ∧ ((w.cancel id).run id).governor.isStopped = true) (w.cancel id).desk := by
  by_cases hover : ((w.run id).program.isNone || (w.run id).ending.isSome) = true
  · have hcancel : w.cancel id = w := if_pos hover
    rw [hcancel]
    exact .refl _
  · have hcancel : w.cancel id = { w with desk := (((w.run id).cancelled w.desk).1.revoke ((w.run id).cancelled w.desk).2).2
        }.setRun id (((w.run id).cancelled w.desk).1.revoke ((w.run id).cancelled w.desk).2).1 := if_neg hover
    rw [hcancel]
    refine Desk.Marks.trans (Desk.Marks.interruptAll fun service hmem => ?_) (.of_services rfl)
    have hid : id < w.runs.size := by
      rw [← Nat.not_le]
      intro hid
      rw [World.run, Array.getD_eq_getD_getElem?, Array.getElem?_eq_none hid] at hmem
      cases hmem
    refine ⟨hid, hmem, ?_⟩
    exact (congrArg (fun r : Run => r.governor.isStopped) (run_setRun_self { w with desk := _ } hid _)).trans rfl

/-- From outside no service is opened, and those of a run are interrupted that is cancelled. -/
theorem Driven.marks (h : w.Driven w') : w.desk.Marks (fun service => ∃ id, id < w.runs.size ∧
    service ∈ (w.run id).governor.pending ∧ (w'.run id).governor.isStopped = true) w'.desk := by
  cases h with
  | start l => exact start_marks w l
  | launch name hparse limits startedAt heap scopes => exact .of_services rfl
  | publish event => exact .of_services (w.desk.publish_services event)
  | cancel id => exact (cancel_marks w id).mono fun service h => ⟨id, h⟩
  | answer p => exact .answer p
  | wait awaited => exact .refl _
  | turn => exact .enqueue _
  | configure config => exact .refl _
  | listen pattern hl => exact .of_services rfl
  | unlisten token => exact .of_services rfl
  | host hbus => exact .of_services rfl

end World

namespace Moment

variable {m n : Moment} {id : RunId} {side : Side}

/-- A move that is no step of a thread opens no service. -/
theorem Move.acts_or_marks (hn : Move m n) : (∃ id side, Acts id side m n) ∨
    m.desk.Marks (fun service => ∃ id, id < m.size ∧ service ∈ (m.run id).governor.pending ∧
      (n.run id).governor.isStopped = true) n.desk := by
  cases hn with
  | reorder _ => exact .inr (.of_services rfl)
  | next hn =>
    cases hn with
    | driven hdriven => exact .inr hdriven.marks
    | waited _ hdesk => exact .inr (.waited hdesk)
    | @entry w entry ready hpop hentry =>
      refine .inr ?_
      cases entry with
      | thread id side => exact absurd rfl (hentry id side)
      | service service =>
        have hserves := (w.run (w.desk.service service).run).stepService_serves (w.dequeued ready).desk service
        exact Desk.Marks.after hserves.marks rfl
      | gathered | forget | controller => exact .of_services rfl
    | thread hpop => exact .inl ⟨_, _, .first hpop⟩
    | step hpace => exact .inl ⟨_, _, .step hpace⟩
    | @rest w id side s _ =>
      obtain ⟨ready, hdesk⟩ := w.rest_desk id side s
      refine .inr (.of_services ?_)
      change (w.rest id side s).desk.services = _
      rw [hdesk]
      rfl

theorem Acts.books (hacts : Acts id side m n) (hm : Possible m) (hid : id < m.size) :
    ∃ ready s, n.At id side s ∧ s.Books side (m.run id) { m.desk with ready } (m.thread id side) := by
  have hfits := hm.sound.thread id side
  have hsided := hm.attended.sided hid side
  obtain ⟨-, ready, -, hat | ⟨rfl, hrest, hat⟩⟩ := hacts.stride hm.sound
  · exact ⟨ready, _, hat, Run.step_books hfits hsided⟩
  · exact ⟨ready, _, hat, Run.interruptWorker_books (hsided.rested hfits hrest)⟩

/-- A service is opened by the thread that asks for it. -/
theorem Move.opened (hn : Move m n) (hm : Possible m) : n.desk.services.size = m.desk.services.size ∨
    ∃ id side work, Acts id side m n ∧ (m.thread id side).control = .request work ∧
      n.desk.services.size = m.desk.services.size + 1 ∧ (n.desk.service m.desk.services.size).run = id ∧
      (n.desk.service m.desk.services.size).side = side ∧ (n.desk.service m.desk.services.size).work = work := by
  rcases hn.acts_or_marks with ⟨id, side, hacts⟩ | hmarks
  · have hid := hm.orderly.acting hacts
    obtain ⟨ready, s, hat, hbooks⟩ := hacts.books hm hid
    rw [hat.desk]
    refine hbooks.opened.imp_right fun ⟨work, hasks, hsize, hrun, hside, hwork⟩ => ?_
    exact ⟨id, side, work, hacts, hasks, hsize, hrun.trans (hm.attended.named hid), hside, hwork⟩
  · exact .inl hmarks.size

/-- The account that runs keep of services: those that they wait for are their own, and those that are interrupted are of a
run that is stopped. -/
structure Books (m : Moment) : Prop where
  pending : ∀ id, id < m.size → ∀ service ∈ (m.run id).governor.pending,
    service < m.desk.services.size ∧ (m.desk.service service).run = id
  cancelled : ∀ service, (m.desk.service service).cancelled = true →
    (m.run (m.desk.service service).run).governor.isStopped = true

theorem Books.owned (h : Books m) (hm : Possible m) (hid : id < m.size) {service : ServiceId}
    (hacts : Acts id side m n) (hawaits : (m.run id).Awaits side service) :
    service < m.desk.services.size ∧ (m.desk.service service).run = id := by
  rcases hawaits with hmem | ⟨rfl, releases, hresume⟩
  · exact h.pending id hid service hmem
  · rw [← hacts.worker_stored] at hresume
    obtain ⟨-, hsize, hrun, -⟩ := (hm.heeding hid).opened .worker service releases hresume
    exact ⟨hsize, hrun⟩

theorem Books.pending_move (h : Books m) (hm : Possible m) (hid : id < m.size) (hn : Move m n) :
    ∀ service ∈ (n.run id).governor.pending, service < n.desk.services.size ∧ (n.desk.service service).run = id := by
  have hold {service : ServiceId} (hmem : service ∈ (m.run id).governor.pending) :
      service < n.desk.services.size ∧ (n.desk.service service).run = id := by
    obtain ⟨hsize, hrun⟩ := h.pending id hid service hmem
    obtain ⟨hsize', hlater⟩ := hn.service hm hsize
    exact ⟨hsize', hlater.run.trans hrun⟩
  have hacted {side : Side} (hacts : Acts id side m n) :
      ∀ service ∈ (n.run id).governor.pending, service < n.desk.services.size ∧ (n.desk.service service).run = id := by
    intro service hmem
    obtain ⟨ready, s, hat, hbooks⟩ := hacts.books hm hid
    rw [hat.run] at hmem
    rcases hbooks.pending service hmem with hbefore | ⟨rfl, hsize⟩
    · exact hold hbefore
    rw [hat.desk]
    rcases hbooks.opened with hsame | ⟨work, -, -, hrun, -⟩
    · rw [hsame] at hsize
      exact absurd hsize (Nat.ne_of_lt (Nat.lt_succ_self _))
    · exact ⟨hsize ▸ Nat.lt_succ_self _, hrun.trans (hm.attended.named hid)⟩
  cases hn.share hm.sound hid with
  | step side ready hacts => exact hacted hacts
  | interrupted ready hacts => exact hacted hacts
  | rested main worker ready hrun =>
    rw [hrun]
    exact fun service hmem => hold hmem
  | served service ready howner hrun =>
    obtain ⟨waiters, hgovernor, -⟩ := (m.run id).stepService_governor { m.desk with ready } service
    rw [hrun, hgovernor]
    exact fun service hmem => hold hmem
  | cancelled hrests hrun =>
    rw [hrun]
    exact fun service hmem => hold hmem
  | aside hrun =>
    rw [hrun]
    exact fun service hmem => hold hmem

theorem Books.move (h : Books m) (hm : Possible m) (hn : Move m n) : Books n := by
  refine ⟨fun id hid => ?_, fun service hcancelled => ?_⟩
  · rcases Nat.lt_or_ge id m.size with hold | hnew
    · exact h.pending_move hm hold hn
    · rw [(hn.unbegun hnew hid).1.governor]
      exact nofun
  -- What was interrupted before the move, and what the move interrupts.
  have hbefore (hcancelled : (m.desk.service service).cancelled = true) :
      (n.run (n.desk.service service).run).governor.isStopped = true := by
    have hsize := Desk.lt_of_cancelled hcancelled
    rw [(hn.service hm hsize).2.run]
    exact hn.stopped hm (hm.orderly.desk.owners service hsize) (h.cancelled service hcancelled)
  rcases hn.acts_or_marks with ⟨id, side, hacts⟩ | hmarks
  · have hid := hm.orderly.acting hacts
    obtain ⟨ready, s, hat, hbooks⟩ := hacts.books hm hid
    rw [hat.desk] at hcancelled
    rcases hbooks.cancelled service hcancelled with hcancelled | ⟨hstopped, hawaits⟩
    · exact hbefore hcancelled
    · obtain ⟨hsize, hrun⟩ := h.owned hm hid hacts hawaits
      rw [(hn.service hm hsize).2.run, hrun, hat.run]
      exact hstopped
  · rcases hmarks.cancelled service hcancelled with hcancelled | ⟨id, hid, hmem, hstopped⟩
    · exact hbefore hcancelled
    · obtain ⟨hsize, hrun⟩ := h.pending id hid service hmem
      rw [(hn.service hm hsize).2.run, hrun]
      exact hstopped

theorem Possible.books (hm : Possible m) : Books m := by
  induction hm with
  | fresh host config holds hbus => exact ⟨fun id hid => absurd hid (Nat.not_lt_zero id), fun service => nofun⟩
  | move hm hn ih => exact ih.move hm hn

/-- In a run without handlers only the main thread asks for services. -/
theorem Possible.services_main (hm : Possible m) {service : ServiceId} (hsize : service < m.desk.services.size)
    (h : (m.run (m.desk.service service).run).Handlerless) : (m.desk.service service).side = .main := by
  induction hm generalizing service with
  | fresh host config holds hbus => exact absurd hsize (Nat.not_lt_zero service)
  | @move m n hm hn ih =>
    by_cases hold : service < m.desk.services.size
    · have hlater := (hn.service hm hold).2
      rw [hlater.side]
      refine ih hold fun p hp => h p ?_
      rw [hlater.run, (hn.terms hm (hm.orderly.desk.owners service hold)).program]
      exact hp
    · rcases hn.opened hm with hsame | ⟨id, side, work, hacts, hasks, hnext, hrun, hside, -⟩
      · exact absurd (hsame ▸ hsize) hold
      obtain rfl : service = m.desk.services.size :=
        Nat.le_antisymm (Nat.le_of_lt_succ (Nat.lt_of_lt_of_eq hsize hnext)) (Nat.le_of_not_lt hold)
      rw [hside]
      cases side with
      | main => rfl
      | worker =>
        have hid := hm.orderly.acting hacts
        rw [hrun] at h
        have hbare := hm.worker_bare hid fun p hp => h p ((hn.terms hm hid).program.trans hp)
        have hfits := hm.sound.thread id .worker
        unfold Thread.Fits at hfits
        rw [hasks, hbare] at hfits
        exact hfits.elim

def Open (id : RunId) (service : ServiceId) (m : Moment) : Prop :=
  service < m.desk.services.size ∧ (m.desk.service service).summons id = true

theorem Open.counted {service : ServiceId} (h : Open id service m) :
    0 < m.desk.services.toList.countP (·.summons id) := by
  refine List.countP_pos_iff.2 ⟨m.desk.service service, ?_, h.2⟩
  rw [m.desk.service_eq h.1]
  exact Array.mem_toList_iff.2 (Array.getElem_mem h.1)

/-- Two open services would summon their main thread twice. -/
theorem Open.counted_twice {service other : ServiceId} (h : Open id service m) (hother : Open id other m)
    (hne : other ≠ service) : 2 ≤ m.desk.services.toList.countP (·.summons id) := by
  -- when one of the two is done, the other still summons the thread
  have hsize := h.1
  have hmodified := Desk.countP_modify (·.summons id) m.desk.services hsize fun s => { s with stage := .done .interrupted }
  have hdone : ({ m.desk.services[service] with stage := .done .interrupted } : Service).summons id = false := by
    simp [Service.summons, Stage.isDone]
  have hopen := h.2
  rw [m.desk.service_eq h.1] at hopen
  rw [hopen, hdone] at hmodified
  have hleft : Open id other (resting { desk := m.desk.setStage service (.done .interrupted) }) := by
    refine ⟨Nat.lt_of_lt_of_eq hother.1 Array.size_modify.symm, ?_⟩
    change (Desk.service { m.desk with services := m.desk.services.modify service _ } other).summons id = true
    rw [Desk.service_modify, if_neg fun hsame => hne hsame.1]
    exact hother.2
  have hcounted : 0 < (m.desk.services.modify service fun s => { s with stage := .done .interrupted }).toList.countP
      (·.summons id) := hleft.counted
  simp only [if_pos, Bool.false_eq_true, if_false] at hmodified
  omega

theorem Open.counted_le {service : ServiceId} (h : Open id service m) (hm : Possible m) (hid : id < m.size) :
    m.desk.services.toList.countP (·.summons id) = 1 ∧ m.desk.ready.toList.countP (·.summons id) = 0 ∧
      m.goesOn id = false := by
  have hcounted := h.counted
  have hload := (hm.rightful hid).load
  have hone : (if (m.run id).program.isSome = true then 1 else 0) ≤ 1 := by split <;> decide
  unfold load Desk.summons at hload
  refine ⟨by omega, by omega, Bool.eq_false_iff.2 fun hgoes => ?_⟩
  rw [if_pos hgoes] at hload
  omega

theorem Open.unique {service other : ServiceId} (h : Open id service m) (hother : Open id other m) (hm : Possible m)
    (hid : id < m.size) : other = service := by
  obtain ⟨hone, -⟩ := h.counted_le hm hid
  apply Decidable.byContradiction
  intro hne
  have htwice := h.counted_twice hother hne
  omega

/-- The main thread makes no step while a service of its own is open. -/
theorem Acts.none_open (hacts : Acts id .main m n) (hm : Possible m) (service : ServiceId) : ¬Open id service m := by
  intro hopen
  obtain ⟨-, hready, hgoes⟩ := hopen.counted_le hm (hm.orderly.acting hacts)
  cases hacts with
  | @first w ready hpop =>
    change w.desk.ready.toList.countP (·.summons id) = 0 at hready
    rw [Queue.toList_of_pop? _ _ _ hpop, List.countP_cons_of_pos (by simp [Ready.summons])] at hready
    cases hready
  | @step w s hpace =>
    rw [goesOn, hpace] at hgoes
    simp [Pace.goesOn] at hgoes

end Moment

end DeskScript
