import DeskScript.Proofs.Machine.Escaping
import DeskScript.Proofs.Machine.Gathering
import DeskScript.Proofs.Machine.Liveness
import DeskScript.Proofs.Machine.Solitary

set_option autoImplicit false

/-!
# Workers that are roused

A worker that waits for mail is made ready when its run closes, and the main thread is told when its worker ends: nobody
is left waiting at the end of a run. Main statements: `Moment.Possible.minded`, `Moment.Possible.told_of_worker`.
-/

namespace DeskScript

namespace Desk

variable {run : RunId} {r : Run} {d d' d'' : Desk}

def Minds (run : RunId) (d : Desk) : Prop :=
  (d.box run).waiting = true ∧ (d.box run).closed = false ∨ .thread run .worker ∈ d.ready.toList

/-- Whoever is ready stays so, and a worker that waits at an open box goes on waiting, or it is ready. -/
structure Tends (run : RunId) (d d' : Desk) : Prop where
  ready : d.ready.toList ⊆ d'.ready.toList
  waits : (d.box run).waiting = true → (d.box run).closed = false → d'.Minds run

theorem Minds.tended (h : d.Minds run) (hd : d.Tends run d') : d'.Minds run :=
  h.elim (fun hwaits => hd.waits hwaits.1 hwaits.2) fun hready => .inr (hd.ready hready)

namespace Tends

theorem trans (h : d.Tends run d') (h' : d'.Tends run d'') : d.Tends run d'' :=
  ⟨fun _ hmem => h'.ready (h.ready hmem), fun hwaiting hopen => (h.waits hwaiting hopen).tended h'⟩

theorem of_box (hready : d.ready.toList ⊆ d'.ready.toList) (hwaiting : (d'.box run).waiting = (d.box run).waiting)
    (hclosed : (d'.box run).closed = (d.box run).closed) : d.Tends run d' :=
  ⟨hready, fun hwaits hopen => .inl ⟨hwaiting.trans hwaits, hclosed.trans hopen⟩⟩

theorem of_boxes (hready : d.ready.toList <+: d'.ready.toList) (hboxes : d'.boxes = d.boxes) : d.Tends run d' := by
  have hbox : d'.box run = d.box run := by rw [box, box, hboxes]
  exact of_box hready.subset (congrArg Mailbox.waiting hbox) (congrArg Mailbox.closed hbox)

theorem refl (d : Desk) : d.Tends run d := of_boxes (List.prefix_refl _) rfl

theorem after (h : d'.Tends run d'') (hready : d'.ready = d.ready) (hboxes : d'.boxes = d.boxes) : d.Tends run d'' :=
  (of_boxes (hready ▸ List.prefix_refl _) hboxes).trans h

theorem enqueue (entry : Ready) : d.Tends run (d.enqueue entry) :=
  of_boxes (d.enqueue_onward entry).ready rfl

theorem silent (h : d.Silent d') (honward : d.Onward d') : d.Tends run d' := of_boxes honward.ready h.boxes

theorem post (other : RunId) (mail : Mail) : d.Tends run (d.post other mail) := by
  by_cases hother : run = other
  · subst hother
    refine ⟨(d.post_onward run mail).ready.subset, fun hwaiting hopen => .inr ?_⟩
    simp only [Desk.post, hopen, hwaiting, if_true, Bool.false_eq_true, if_false]
    exact mem_enqueue _ _
  · have hbox := d.post_ne hother mail
    exact of_box (d.post_onward other mail).ready.subset (congrArg Mailbox.waiting hbox) (congrArg Mailbox.closed hbox)

theorem publish (event : Event) : d.Tends run (d.publish event) := by
  have hfold (listeners : List Listener) (d : Desk) : d.Tends run (listeners.foldl (deliver event) d) := by
    induction listeners generalizing d with
    | nil => exact refl d
    | cons listener listeners ih =>
      refine Tends.trans ?_ (ih _)
      cases listener with
      | handler other body scope => exact post other _
      | recorder => exact of_boxes (List.prefix_refl _) rfl
      | printer lead =>
        simp only [deliver]
        split
        · exact of_boxes (List.prefix_refl _) rfl
        · exact refl d
  exact after (hfold _ _) rfl rfl

theorem wake (id : ServiceId) (reply : Except Fault Plain) : d.Tends run (d.wake id reply) :=
  silent (d.wake_silent id reply) (d.wake_onward id reply)

theorem interruptAll (ids : List ServiceId) : d.Tends run (d.interruptAll ids) :=
  silent (d.interruptAll_silent ids) (d.interruptAll_onward ids)

theorem op (hop : Op r d d') (hother : run ≠ r.id) : d.Tends run d' := by
  cases hop with
  | publish event => exact publish event
  | host | subscribe | revoke => exact of_boxes (List.prefix_refl _) rfl
  | enqueue entry _ => exact enqueue entry
  | open_ side work => exact of_boxes (d.open_onward r.id side work).ready rfl
  | wake => exact silent (d.wakeAll_silent _) (d.wakeAll_onward _)
  | interrupt ids => exact interruptAll ids
  | handled =>
    have hbox := d.handled_box_ne hother
    exact of_box (d.handled_onward r.id).ready.subset (congrArg Mailbox.waiting hbox) (congrArg Mailbox.closed hbox)
  | box f _ =>
    have hbox := d.box_modifyBox_ne hother f
    exact of_box (fun _ hmem => hmem) (congrArg Mailbox.waiting hbox) (congrArg Mailbox.closed hbox)

theorem ops (hops : Relation.ReflTransGen (Op r) d d') (hother : run ≠ r.id) : d.Tends run d' := by
  induction hops with
  | refl => exact refl d
  | tail _ hop ih => exact ih.trans (op hop hother)

theorem deed {id : RunId} (h : d.Deed id d') : d.Tends run d' := by
  cases h with
  | host | subscribe => exact of_boxes (List.prefix_refl _) rfl
  | publish event _ => exact publish event

theorem waited (h : d.waitForWorld? = some d') : d.Tends run d' := by
  unfold waitForWorld? at h
  split at h
  · cases h
    exact after (wake _ _) rfl rfl
  · split at h
    · cases h
    · cases h
      exact after (wake _ _) rfl rfl

theorem answer (p : Plain) : d.Tends run (d.answer p) := by
  unfold Desk.answer
  split
  · exact of_boxes (List.prefix_refl _) rfl
  · exact after (wake _ _) rfl rfl

end Tends

end Desk

namespace Run

variable {r : Run} {d : Desk} {run : RunId}

theorem stepService_tends (r : Run) (d : Desk) (service : ServiceId) : d.Tends run (r.stepService d service).2 := by
  have hready := (r.stepService_serves d service).ready
  have hbegin (work : Work) : (((r.beginService d service work).2.box run).waiting = (d.box run).waiting) ∧
      ((r.beginService d service work).2.box run).closed = (d.box run).closed := by
    have hsame {d' : Desk} (h : d'.boxes = d.boxes) : (d'.box run).waiting = (d.box run).waiting ∧
        (d'.box run).closed = (d.box run).closed := by
      rw [Desk.box, Desk.box, h]
      exact ⟨rfl, rfl⟩
    cases work with
    | dialog kind message default => exact hsame (d.beginDialog_still service kind message default).boxes
    | sleep ms => exact hsame (d.beginSleep_still service ms).boxes
    | command name args => exact hsame (r.tickCommand_boxes (d.recordCommand name args) service _ _ args).1
    | request q => exact hsame (r.tickCommand_boxes (d.recordCommand _ _) service _ _ _).1
    | idle =>
      simp only [beginService]
      split <;> exact hsame rfl
    | join =>
      simp only [beginService]
      split
      · exact hsame rfl
      · change ((d.modifyBox r.id _).box run).waiting = _ ∧ ((d.modifyBox r.id _).box run).closed = _
        rcases d.box_modifyBox r.id run fun b => { b with joiners := b.joiners ++ [service] } with hbox | hbox
        · rw [hbox]
          exact ⟨rfl, rfl⟩
        · rw [hbox]
          exact ⟨rfl, rfl⟩
  unfold stepService at hready ⊢
  dsimp only at hready ⊢
  split at hready
  · exact .refl d
  · exact .of_boxes hready rfl
  · exact .of_box hready.subset (hbegin _).1 (hbegin _).2
  · exact .of_boxes hready (r.tickCommand_boxes d service _ _ _).1
  · exact .of_boxes hready rfl
  · exact .of_boxes hready rfl
  · exact .refl d

theorem cancelWorker_finished (hfinished : r.worker.control = .finished) :
    .gathered r.id ∈ (r.cancelWorker d).2.ready.toList := by
  unfold cancelWorker
  rw [hfinished]
  exact Desk.mem_enqueue _ _

theorem cancelWorker_rouses (hfits : r.worker.Fits) (hbare : r.worker.stack = []) (hgoes : r.worker.control ≠ .finished)
    (hwaiting : (d.box r.id).waiting = true) : .thread r.id .worker ∈ (r.cancelWorker d).2.ready.toList := by
  unfold cancelWorker
  split
  · rename_i hfinished
    exact absurd hfinished hgoes
  · rename_i hresume
    unfold Thread.Fits at hfits
    rw [hresume, hbare] at hfits
    exact hfits.elim
  · simp only [hwaiting, if_true]
    exact Desk.mem_enqueue _ _

/-- A run that closes after its worker has ended tells its main thread. -/
theorem close_gathers (ending : Ending) (hfinished : r.worker.control = .finished) :
    .gathered r.id ∈ (r.close d ending).desk.ready.toList := by
  let d₁ := (r.revoke (d.modifyBox r.id fun b => { b with closed := true })).2
  let r₂ := ((r.revoke (d.modifyBox r.id fun b => { b with closed := true })).1.cancelled d₁).1
  exact @cancelWorker_finished r₂ (d₁.interruptAll r.governor.pending) hfinished

/-- A run that closes makes its worker ready, unless that has ended. -/
theorem close_rouses (ending : Ending) (hrun : r.id < d.boxes.size) (hfits : r.worker.Fits) (hbare : r.worker.stack = [])
    (hgoes : r.worker.control ≠ .finished) (h : d.Minds r.id) : (r.close d ending).desk.Minds r.id := by
  rcases h with ⟨hwaiting, -⟩ | hready
  · let d₁ := (r.revoke (d.modifyBox r.id fun b => { b with closed := true })).2
    let r₂ := ((r.revoke (d.modifyBox r.id fun b => { b with closed := true })).1.cancelled d₁).1
    refine .inr (@cancelWorker_rouses r₂ (d₁.interruptAll r.governor.pending) hfits hbare hgoes ?_)
    have hbox : d₁.box r.id = { d.box r.id with closed := true } := d.box_modifyBox_self hrun _
    change ((d₁.interruptAll r.governor.pending).box r.id).waiting = true
    rw [(d₁.interruptAll_silent _).box, hbox]
    exact hwaiting
  · exact .inr ((Desk.ops_onward (r.close_deals (d := d) (t := {}) ending).desk).ready.subset hready)

theorem step_minds {t : Thread} (hfits : t.Fits) (hsided : t.Sided .main) (hrun : r.id < d.boxes.size)
    (hworker : r.worker.Fits) (hbare : r.worker.stack = []) (hgoes : r.worker.control ≠ .finished) (h : d.Minds r.id) :
    (step .main r d t).desk.Minds r.id := by
  cases hsided.turn hfits with
  | computes hcomputes => exact h.tended (.deed (@step_calm .main r d t hcomputes).deed)
  | checkpoint stack =>
    simp only [step, checkpoint]
    split
    · exact h
    · split <;> exact h
  | request work stack =>
    simp only [step, request]
    split
    · exact h
    · exact h.tended (.of_boxes (d.open_onward r.id .main work).ready rfl)
  | resume service stack =>
    simp only [step, resume]
    split
    · exact h
    · split <;> exact h
  | ran signal => exact h
  | stopped e hframe =>
    rcases hframe with rfl | ⟨v, rfl⟩
    · exact close_rouses _ hrun hworker hbare hgoes h
    · exact close_rouses _ hrun hworker hbare hgoes h
  | joined result v =>
    simp only [step, reply]
    split
    · exact close_rouses _ hrun hworker hbare hgoes h
    · exact close_rouses _ hrun hworker hbare hgoes h
  | start => exact h.tended (.enqueue _)
  | settle ending =>
    simp only [step, settle]
    split
    · exact h.tended (.publish _)
    · exact h
  | finished => exact h

inductive IdleTurn (r : Run) (control : Control) (s : Step) : Prop
  | goes (hstart : control = .start) (hpace : s.pace = .go) (hthread : s.thread = ⟨.receive, []⟩)
  | waits (hpace : s.pace = .park) (hthread : s.thread = ⟨.receive, []⟩)
      (hwaits : (s.desk.box r.id).waiting = true ∧ (s.desk.box r.id).closed = false)
  | ends (hthread : s.thread = ⟨.finished, []⟩) (htold : control ≠ .finished → r.gathering = true →
      .gathered r.id ∈ s.desk.ready.toList)

theorem retire_idleTurn {r' : Run} (hid : r'.id = r.id) (hgathering : r'.gathering = r.gathering) (control : Control) :
    r.IdleTurn control (r'.retire d) := by
  refine .ends rfl fun _ h => ?_
  simp only [retire, hgathering, h, if_true, hid]
  exact Desk.mem_enqueue _ _

/-- A worker without a handler goes to its mailbox, and out when that is closed. -/
theorem step_idleTurn {control : Control} (hfits : Thread.Fits ⟨control, []⟩)
    (hsided : Thread.Sided .worker ⟨control, []⟩) (hrun : r.id < d.boxes.size)
    (hbare : (step .worker r d ⟨control, []⟩).thread.stack = []) :
    r.IdleTurn control (step .worker r d ⟨control, []⟩) := by
  cases hsided.turn hfits with
  | computes hcomputes => exact absurd rfl (hfits.of_computes hcomputes).1
  | checkpoint | request | resume => exact hfits.elim
  | start => exact .goes rfl rfl rfl
  | receive =>
    simp only [step, receive] at hbare ⊢
    split
    · exact retire_idleTurn rfl rfl _
    · rename_i hopen
      split
      · refine .waits rfl rfl ?_
        rw [d.box_modifyBox_self hrun]
        exact ⟨rfl, Bool.eq_false_iff.2 hopen⟩
      · rename_i hmail
        rw [if_neg hopen, hmail] at hbare
        dsimp only at hbare
        split at hbare <;> cases hbare
  | finished => exact .ends rfl fun h => absurd rfl h

theorem interruptWorker_idleTurn {control : Control} (hrested : Thread.Rested ⟨control, []⟩)
    (hfits : Thread.Fits ⟨control, []⟩) : r.IdleTurn control (r.interruptWorker d ⟨control, []⟩) := by
  cases hrested with
  | resume service => exact hfits.elim
  | recheck => exact hfits.elim
  | bare hresume hrecheck =>
    simp only [interruptWorker]
    exact @retire_idleTurn r d { r with workerCancelled := false } rfl rfl _

end Run

namespace World

variable {w w' : World} {run : RunId}

theorem start_tends (w : World) (l : Launch) : w.desk.Tends run (w.start l).2.desk := by
  obtain ⟨-, hdesk⟩ := w.nameFor_same l.name
  have hpublish (w : World) (event : Event) : w.desk.Tends run (w.publish event).desk := .publish event
  have hadd (w : World) (r : Run) : w.desk.Tends run (w.addRun r).desk := by
    have hbox := w.box_addRun r run
    exact .of_box (fun _ hmem => hmem) (congrArg Mailbox.waiting hbox) (congrArg Mailbox.closed hbox)
  simp only [World.start]
  generalize w.nameFor l.name = named at hdesk ⊢
  have hnamed (event : Event) : w.desk.Tends run (named.2.publish event).desk := hdesk ▸ hpublish named.2 event
  split
  · split
    · exact ((hnamed _).trans (hpublish _ _)).trans (hadd _ _)
    · exact (hnamed _).trans (hadd _ _)
  · split
    · exact hnamed _
    · exact ((hnamed _).trans (hadd _ _)).trans (.enqueue _)

theorem Driven.tends (h : w.Driven w') : w.desk.Tends run w'.desk := by
  cases h with
  | start l => exact start_tends w l
  | @launch name tokens source program hparse limits startedAt heap scopes =>
    have hbox := w.box_launch name program limits startedAt heap scopes run
    refine Desk.Tends.trans ?_ (.enqueue _)
    exact .of_box (fun _ hmem => hmem) (congrArg Mailbox.waiting hbox) (congrArg Mailbox.closed hbox)
  | publish event => exact .publish event
  | cancel id =>
    simp only [World.cancel]
    split
    · exact .refl _
    · exact Desk.Tends.trans (.interruptAll (w.run id).governor.pending) (.of_boxes (List.prefix_refl _) rfl)
  | answer p => exact .answer p
  | turn => exact .enqueue _
  | wait | configure | listen | unlisten | host => exact .of_boxes (List.prefix_refl _) rfl

end World

namespace Moment

variable {m n : Moment} {id : RunId}

/-- Who is ready goes on being so until it is its turn. -/
theorem Move.kept_ready (hn : Move m n) (hm : Possible m) {entry : Ready} (h : entry ∈ m.desk.ready.toList) :
    entry ∈ n.desk.ready.toList ∨ Takes entry m n := by
  cases hn with
  | reorder hperm => exact .inl (hperm.subset h)
  | next hn =>
    rcases hn.takes_or_onward hm.sound hm.attended with ⟨taken, htakes⟩ | honward
    · obtain ⟨rest, hready, hrest⟩ := htakes.ready hm.sound hm.attended
      rw [hready] at h
      rcases List.mem_cons.1 h with rfl | hmem
      · exact .inr htakes
      · exact .inl (hrest.subset hmem)
    · exact .inl (honward.ready.subset h)

theorem Takes.acts {side : Side} (h : Takes (.thread id side) m n) : Acts id side m n := by
  cases h with
  | entry _ hthread => exact absurd rfl (hthread id side)
  | thread hpop => exact .first hpop

theorem Takes.tells (h : Takes (.gathered id) m n) : .thread id .main ∈ n.desk.ready.toList := by
  cases h with
  | entry => exact Desk.mem_enqueue _ _

/-- The worker of a run without handlers, when it acts. -/
theorem Acts.idleTurn (hacts : Acts id .worker m n) (hm : Possible m) (hid : id < m.size)
    (hless : (m.run id).Handlerless) :
    ∃ w s, n = within w id .worker s ∧ (m.run id).IdleTurn (m.thread id .worker).control s := by
  have hworker := hm.worker_control hid hless
  have hfits := hm.sound.thread id .worker
  have hsided := hm.attended.sided hid .worker
  have hrun : (m.run id).id < m.desk.boxes.size := by
    rw [hm.attended.named hid, hm.orderly.desk.boxes]
    exact hid
  have hbare := (hm.move hacts.move).worker_bare (Nat.lt_of_lt_of_le hid hacts.move.size)
    ((hacts.move.handlerless hm hid).2 hless)
  cases hacts with
  | @first w ready hpop =>
    refine ⟨_, _, rfl, ?_⟩
    rw [(at_within _ id .worker _).thread] at hbare
    change (w.run id).worker = ⟨(w.run id).worker.control, []⟩ at hworker
    change (w.run id).worker.Fits at hfits
    change (w.run id).worker.Sided .worker at hsided
    change (w.run id).IdleTurn (w.run id).worker.control _
    unfold Run.firstStep at hbare ⊢
    have hrest := (hm.sound.runs id).rests .worker
    change (w.run id).worker.control.atRest = true at hrest
    generalize (w.run id).worker.control = control at hworker hrest ⊢
    rw [hworker] at hfits hsided hbare ⊢
    dsimp only at hbare ⊢
    split at hbare
    · rw [if_pos ‹_›]
      exact Run.interruptWorker_idleTurn (hsided.rested hfits hrest) hfits
    · rw [if_neg ‹_›]
      exact Run.step_idleTurn hfits hsided hrun hbare
  | @step w s hpace =>
    refine ⟨_, _, rfl, ?_⟩
    rw [(at_within w id .worker _).thread] at hbare
    rw [(at_within w id .worker s).thread] at hworker hfits hsided ⊢
    rw [(at_within w id .worker s).run] at hrun ⊢
    generalize s.thread.control = control at hworker ⊢
    rw [hworker] at hfits hsided hbare ⊢
    exact Run.step_idleTurn hfits hsided hrun hbare

inductive Minded (id : RunId) (m : Moment) : Prop
  | unbegun (h : (m.thread id .main).control = .start)
  | finished (h : (m.thread id .worker).control = .finished)
  | going {w : World} {s : Step} (h : m = within w id .worker s) (hpace : s.pace = .go)
  | minds (h : m.desk.Minds id)

theorem boxes_of {d : Desk} (hm : Possible m) (hid : id < m.size) (hboxes : d.boxes = m.desk.boxes) :
    (m.run id).id < d.boxes.size := by
  rw [hm.attended.named hid, hboxes, hm.orderly.desk.boxes]
  exact hid

/-- A worker that waits for mail is not forgotten by a move. -/
theorem Move.waits (hn : Move m n) (hm : Possible m) (hid : id < m.size) (hless : (m.run id).Handlerless)
    (hgoes : (m.thread id .worker).control ≠ .finished) (hacts : ¬Acts id .worker m n)
    (h : (m.desk.box id).waiting = true ∧ (m.desk.box id).closed = false) : n.desk.Minds id := by
  have hname := hm.attended.named hid
  have hof {other : RunId} {side : Side} (hacted : Acts other side m n) : n.desk.Minds id := by
    by_cases hsame : other = id
    · subst hsame
      cases side with
      | worker => exact absurd hacted hacts
      | main =>
        obtain ⟨ready, hat, -⟩ := hacted.main_step hm.sound
        have hstored := hacted.worker_stored
        have hfits := hm.sound.thread other .worker
        have hbare := hm.worker_bare hid hless
        rw [hstored] at hfits hbare hgoes
        rw [hat.desk]
        have hminds := Run.step_minds (d := { m.desk with ready }) (hm.sound.thread other .main)
          (hm.attended.sided hid .main) (boxes_of hm hid rfl) hfits hbare hgoes (.inl (by rw [hname]; exact h))
        rwa [hname] at hminds
    · obtain ⟨ready, s, -, hat, hdeals⟩ := hacted.deals hm (hm.orderly.acting hacted)
      rw [hat.desk]
      have hne : id ≠ (m.run other).id := by
        rw [hm.attended.named (hm.orderly.acting hacted)]
        exact Ne.symm hsame
      exact (Desk.Tends.ops hdeals.desk hne).waits h.1 h.2
  cases hn with
  | reorder _ => exact .inl h
  | next hn =>
    cases hn with
    | driven hdriven => exact hdriven.tends.waits h.1 h.2
    | waited _ hdesk => exact (Desk.Tends.waited hdesk).waits h.1 h.2
    | thread hpop => exact hof (.first hpop)
    | step hpace => exact hof (.step hpace)
    | @entry w entry ready hpop hentry =>
      cases entry with
      | thread run side => exact absurd rfl (hentry run side)
      | gathered | forget | controller => exact .inl h
      | service service =>
        exact ((w.run (w.desk.service service).run).stepService_tends (w.dequeued ready).desk service).waits h.1 h.2
    | @rest w active working s _ =>
      obtain ⟨ready, hdesk⟩ := w.rest_desk active working s
      change (w.rest active working s).desk.Minds id
      rw [hdesk]
      exact .inl h

theorem Move.worker_cases (hn : Move m n) (hm : m.Sound) (hid : id < m.size) :
    Acts id .worker m n ∨ n.thread id .worker = m.thread id .worker := by
  cases hn.share hm hid with
  | step side _ hacts _ hother =>
    cases side with
    | main => exact .inr hother
    | worker => exact .inl hacts
  | interrupted _ hacts => exact .inl hacts
  | rested _ _ _ _ _ hthreads | served _ _ _ _ _ hthreads | cancelled _ _ _ hthreads | aside _ hthreads =>
    exact .inr (hthreads .worker)

theorem Acts.begins_worker (hacts : Acts id .main m n) (hm : Possible m) (hid : id < m.size)
    (hstart : (m.thread id .main).control = .start) : .thread id .worker ∈ n.desk.ready.toList := by
  obtain ⟨ready, hat, -⟩ := hacts.main_step hm.sound
  rw [hat.desk]
  generalize m.thread id .main = t at hstart
  obtain ⟨control, stack⟩ := t
  cases hstart
  have hmem := ({ m.desk with ready } : Desk).mem_enqueue (.thread (m.run id).id .worker)
  rw [hm.attended.named hid] at hmem
  simp only [Run.step, Run.begin, Step.go, hm.attended.named hid]
  exact hmem

theorem Minded.move (h : Minded id m) (hm : Possible m) (hid : id < m.size) (hless : (m.run id).Handlerless)
    (hn : Move m n) : Minded id n := by
  have hname := hm.attended.named hid
  by_cases hacts : Acts id .worker m n
  · obtain ⟨w, s, rfl, hturn⟩ := hacts.idleTurn hm hid hless
    cases hturn with
    | goes _ hpace _ => exact .going rfl hpace
    | waits _ _ hwaits => exact .minds (.inl (hname ▸ hwaits))
    | ends hthread _ =>
      refine .finished ?_
      rw [(at_within w id .worker s).thread, hthread]
  have hsame := (hn.worker_cases hm.sound hid).resolve_left hacts
  by_cases hfinished : (m.thread id .worker).control = .finished
  · exact .finished (hsame ▸ hfinished)
  cases h with
  | unbegun hstart =>
    rcases hn.main_cases hm hid with hmain | ⟨hthread, -⟩
    · exact .minds (.inr (hmain.begins_worker hm hid hstart))
    · exact .unbegun (hthread ▸ hstart)
  | finished h => exact absurd h hfinished
  | @going w s hwithin hpace =>
    subst hwithin
    obtain rfl := hn.eq_follow hpace
    refine absurd ?_ hacts
    rw [follow, if_pos hpace]
    exact .step hpace
  | minds h =>
    refine .minds ?_
    rcases h with hwaits | hready
    · exact hn.waits hm hid hless hfinished hacts hwaits
    · exact .inr ((hn.kept_ready hm hready).resolve_right fun htakes => hacts htakes.acts)

theorem Possible.minded (hm : Possible m) (hid : id < m.size) (h : (m.run id).Handlerless) : Minded id m := by
  refine hm.run_induction (P := fun id m => (m.run id).Handlerless → Minded id m) hid (fun _ hthreads _ => ?_)
    (fun {m n id} hm hid hn ih h => ?_) h
  · exact .unbegun (by rw [hthreads])
  · have hbefore := (hn.handlerless hm hid).1 h
    exact (ih hbefore).move hm hid hbefore hn

/-- A main thread that waits for its worker has been told when that has ended. -/
theorem Possible.told_of_worker (hm : Possible m) (hid : id < m.size) (h : (m.run id).Handlerless) {ending : Ending}
    (hsettle : (m.thread id .main).control = .settle ending) (hfinished : (m.thread id .worker).control = .finished) :
    .gathered id ∈ m.desk.ready.toList ∨ .thread id .main ∈ m.desk.ready.toList := by
  refine hm.run_induction (P := fun id m => (m.run id).Handlerless → ∀ ending,
      (m.thread id .main).control = .settle ending → (m.thread id .worker).control = .finished →
      .gathered id ∈ m.desk.ready.toList ∨ .thread id .main ∈ m.desk.ready.toList)
    hid (fun _ hthreads _ ending hsettle => ?_) (fun {m n id} hm hid hn ih h ending hsettle hfinished => ?_)
    h ending hsettle hfinished
  · rw [hthreads] at hsettle
    cases hsettle
  have hbefore := (hn.handlerless hm hid).1 h
  have hname := hm.attended.named hid
  rcases hn.main_cases hm hid with hmain | ⟨hthread, -⟩
  · rcases hmain.over_cases hm hid (by rw [hsettle]; rfl) with hover | ⟨ready, ending', -, hat, hworker⟩
    · rw [hmain.finishes hm.sound hover] at hsettle
      cases hsettle
    · -- the run has just closed
      rw [hworker, hmain.worker_stored] at hfinished
      have hmem := Run.close_gathers (d := { m.desk with ready }) ending' hfinished
      rw [hname] at hmem
      rw [hat.desk]
      exact .inl hmem
  rw [hthread] at hsettle
  have hover : (m.thread id .main).control.isOver = true := by
    rw [hsettle]
    rfl
  by_cases hbusy : (m.thread id .worker).control = .finished
  · rcases ih hbefore ending hsettle hbusy with hgathered | hready
    · rcases hn.kept_ready hm hgathered with hkept | htakes
      · exact .inl hkept
      · exact .inr htakes.tells
    · refine (hn.kept_ready hm hready).elim .inr fun htakes => ?_
      have hended := htakes.acts.finishes hm.sound hover
      rw [hthread, hsettle] at hended
      cases hended
  · rcases hn.worker_cases hm.sound hid with hacts | hsame
    · obtain ⟨w, s, rfl, hturn⟩ := hacts.idleTurn hm hid hbefore
      rw [(at_within w id .worker s).thread] at hfinished
      cases hturn with
      | goes _ _ hthread | waits _ hthread _ =>
        rw [hthread] at hfinished
        cases hfinished
      | ends _ htold => exact .inl (hname ▸ htold hbusy (hm.gathering_of_over hid hover))
    · exact absurd (hsame ▸ hfinished) hbusy

end Moment

namespace Course

variable {c : Course} {id : RunId} {n i : Nat} {ending : Ending}

theorem possible (c : Course) (n : Nat) : (c.moment n).Possible := (c.reachable_moment n).possible

theorem move (c : Course) (n : Nat) : (c.moment n).Move (c.moment (n + 1)) := .next (c.next n)

theorem later (c : Course) (hi : n ≤ i) : (c.moment n).Moves (c.moment i) := by
  induction hi with
  | refl => exact .refl _
  | step _ ih => exact .move ih (c.move _)

theorem handlerless_later (hid : id < (c.moment n).size) (hless : ((c.moment n).run id).Handlerless) (hi : n ≤ i) :
    ((c.moment i).run id).Handlerless := by
  rw [Run.Handlerless, ((c.later hi).terms (c.possible n) hid).program]
  exact hless

/-- The worker of a run without handlers acts once more when the run has closed. -/
theorem worker_acts (hid : id < (c.moment n).size) (hless : ((c.moment n).run id).Handlerless)
    (hover : ((c.moment n).thread id .main).control.isOver = true)
    (hgoes : ((c.moment n).thread id .worker).control ≠ .finished) :
    ∃ i ≥ n, (c.moment i).thread id .worker = (c.moment n).thread id .worker ∧
      Moment.Acts id .worker (c.moment i) (c.moment (i + 1)) := by
  cases (c.possible n).minded hid hless with
  | unbegun hstart =>
    rw [hstart] at hover
    cases hover
  | finished hfinished => exact absurd hfinished hgoes
  | @going w s hwithin hpace =>
    refine ⟨n, Nat.le_refl n, rfl, ?_⟩
    have hmove := c.move n
    rw [hwithin] at hmove ⊢
    obtain hfollow := hmove.eq_follow hpace
    rw [hfollow, Moment.follow, if_pos hpace]
    exact .step hpace
  | minds h =>
    rcases h with ⟨-, hopen⟩ | hready
    · rw [((c.possible n).silenced hid hover).closed] at hopen
      cases hopen
    obtain ⟨j, hj, htakes⟩ := c.taken hready
    -- the worker is where it was until it acts
    have hstays (i : Nat) (hi : n ≤ i) : (c.moment i).thread id .worker = (c.moment n).thread id .worker ∨
        ∃ k ≥ n, (c.moment k).thread id .worker = (c.moment n).thread id .worker ∧
          Moment.Acts id .worker (c.moment k) (c.moment (k + 1)) := by
      induction hi with
      | refl => exact .inl rfl
      | @step i hi ih =>
        rcases ih with hsame | hacted
        · rcases (c.move i).worker_cases (c.sound i) (size_mono hid hi) with hacts | hstill
          · exact .inr ⟨i, hi, hsame, hacts⟩
          · exact .inl (hstill.trans hsame)
        · exact .inr hacted
    exact (hstays j hj).elim (fun hsame => ⟨j, hj, hsame, htakes.acts⟩) fun h => h

theorem over_later (hid : id < (c.moment n).size) (hover : ((c.moment n).thread id .main).control.isOver = true)
    (hi : n ≤ i) : ((c.moment i).thread id .main).control.isOver = true :=
  (c.later hi).over (c.possible n) hid hover

/-- When the run has closed, the worker turns to its mailbox first, and then it ends. -/
theorem worker_turns (hid : id < (c.moment n).size) (hless : ((c.moment n).run id).Handlerless)
    (hover : ((c.moment n).thread id .main).control.isOver = true)
    (hacts : Moment.Acts id .worker (c.moment n) (c.moment (n + 1))) :
    ((c.moment (n + 1)).thread id .worker).control = .finished ∨
      ((c.moment n).thread id .worker).control = .start ∧ ((c.moment (n + 1)).thread id .worker).control = .receive := by
  have hnext := Nat.le_succ n
  have hclosed := ((c.possible (n + 1)).silenced (size_mono hid hnext) (over_later hid hover hnext)).closed
  obtain ⟨w, s, hwithin, hturn⟩ := hacts.idleTurn (c.possible n) hid hless
  rw [hwithin] at hclosed ⊢
  rw [(Moment.at_within w id .worker s).thread]
  cases hturn with
  | goes hstart _ hthread => exact .inr ⟨hstart, by rw [hthread]⟩
  | waits _ _ hwaits =>
    rw [(c.attended n).named hid] at hwaits
    exact absurd (hwaits.2.symm.trans hclosed) nofun
  | ends hthread => exact .inl (by rw [hthread])

/-- The worker of a run without handlers ends when the run has closed. -/
theorem worker_finishes (hid : id < (c.moment n).size) (hless : ((c.moment n).run id).Handlerless)
    (hover : ((c.moment n).thread id .main).control.isOver = true) :
    ∃ i ≥ n, ((c.moment i).thread id .worker).control = .finished := by
  by_cases hfinished : ((c.moment n).thread id .worker).control = .finished
  · exact ⟨n, Nat.le_refl n, hfinished⟩
  obtain ⟨i, hi, -, hacts⟩ := c.worker_acts hid hless hover hfinished
  rcases worker_turns (size_mono hid hi) (handlerless_later hid hless hi) (over_later hid hover hi) hacts with
    hfinished | ⟨-, hreceive⟩
  · exact ⟨i + 1, Nat.le_succ_of_le hi, hfinished⟩
  have hi := Nat.le_succ_of_le hi
  obtain ⟨j, hj, hsame, hacts⟩ := c.worker_acts (size_mono hid hi) (handlerless_later hid hless hi)
    (over_later hid hover hi) (by rw [hreceive]; exact nofun)
  have hj := Nat.le_trans hi hj
  rcases worker_turns (size_mono hid hj) (handlerless_later hid hless hj) (over_later hid hover hj) hacts with
    hfinished | ⟨hstart, -⟩
  · exact ⟨j + 1, Nat.le_succ_of_le hj, hfinished⟩
  · rw [hsame, hreceive] at hstart
    cases hstart

theorem ended_later (hid : id < (c.moment n).size) (hthread : (c.moment n).thread id .main = ⟨.finished, []⟩)
    (hi : n ≤ i) : (c.moment i).thread id .main = ⟨.finished, []⟩ ∧
      ((c.moment i).run id).ending = ((c.moment n).run id).ending := by
  induction hi with
  | refl => exact ⟨hthread, rfl⟩
  | @step i hi ih =>
    obtain ⟨hfinished, hsame⟩ := (c.move i).finished (c.possible i) (size_mono hid hi) ih.1
    exact ⟨hfinished, hsame.trans ih.2⟩

def Ends (c : Course) (id : RunId) (ending : Ending) (n : Nat) : Prop :=
  ∃ i ≥ n, ∀ j ≥ i, ((c.moment j).run id).ending = some ending

theorem Ends.before (h : c.Ends id ending i) (hi : n ≤ i) : c.Ends id ending n := by
  obtain ⟨j, hj, hended⟩ := h
  exact ⟨j, Nat.le_trans hi hj, hended⟩

theorem ends_of_ended (hid : id < (c.moment n).size) (hthread : (c.moment n).thread id .main = ⟨.finished, []⟩)
    (hending : ((c.moment n).run id).ending = some ending) : c.Ends id ending n :=
  ⟨n, Nat.le_refl n, fun _ hj => (ended_later hid hthread hj).2.trans hending⟩

/-- A main thread that waits for the end of its worker, and is ready, says how the run ended. -/
theorem ends_of_ready (hid : id < (c.moment n).size) (hsettles : (c.moment n).Settles id ending)
    (hready : .thread id .main ∈ c.ready n) : c.Ends id ending n := by
  obtain ⟨i, hi, htakes⟩ := c.taken hready
  have hsettles := hsettles.moves (c.possible n) hid (c.later hi)
  have hid := size_mono hid hi
  cases hsettles with
  | ended hthread hending => exact (ends_of_ended hid hthread hending).before hi
  | waits hthread =>
    have hover : ((c.moment i).thread id .main).control.isOver = true := by
      rw [hthread]
      rfl
    have hfinished := htakes.acts.finishes (c.sound i) hover
    refine Ends.before ?_ (Nat.le_succ_of_le hi)
    cases Moment.Settles.move (.waits hthread) (c.possible i) hid (c.move i) with
    | waits hthread =>
      rw [hthread] at hfinished
      cases hfinished
    | ended hthread hending => exact ends_of_ended (size_mono hid (Nat.le_succ i)) hthread hending

theorem ends_of_settles (hid : id < (c.moment n).size) (hless : ((c.moment n).run id).Handlerless)
    (hsettles : (c.moment n).Settles id ending) : c.Ends id ending n := by
  have hover : ((c.moment n).thread id .main).control.isOver = true := by
    cases hsettles with
    | waits hthread | ended hthread => rw [hthread]; rfl
  obtain ⟨i, hi, hfinished⟩ := c.worker_finishes hid hless hover
  have hsettled := hsettles.moves (c.possible n) hid (c.later hi)
  cases hsettled with
  | ended hthread hending => exact (ends_of_ended (size_mono hid hi) hthread hending).before hi
  | waits hthread =>
    have hless := handlerless_later hid hless hi
    rcases (c.possible i).told_of_worker (size_mono hid hi) hless (by rw [hthread]) hfinished with hgathered | hready
    · obtain ⟨j, hj, htakes⟩ := c.taken hgathered
      have hj := Nat.le_succ_of_le (Nat.le_trans hi hj)
      have hsettled := hsettles.moves (c.possible n) hid (c.later hj)
      exact (ends_of_ready (size_mono hid hj) hsettled htakes.tells).before hj
    · exact (ends_of_ready (size_mono hid hi) (.waits hthread) hready).before hi

end Course

end DeskScript
