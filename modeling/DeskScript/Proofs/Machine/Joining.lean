import DeskScript.Proofs.Machine.Mailing

set_option autoImplicit false

/-!
# Waiting for the handlers

At its end the main thread waits until every delivered event has been handled. Only the run itself tells it so: what other
runs do, and whoever drives the world, leave the box of a run alone as long as they publish nothing, and do not wake the
service that waits for its handlers, unless they interrupt it. Main statement: `Moment.Move.spares`.
-/

namespace DeskScript

namespace Desk

def Leaves (service : ServiceId) (d d' : Desk) : Prop :=
  d'.service service = d.service service ∨ (d'.service service).cancelled = true ∧
    ∀ result, (d'.service service).stage = .done result → (d.service service).stage = .done result

variable {d d' d'' : Desk} {service : ServiceId} {run : RunId}

theorem Leaves.trans (h : d.Leaves service d') (h' : d'.Leaves service d'') : d.Leaves service d'' := by
  rcases h' with hsame | ⟨hcancelled, hdone⟩
  · rw [Leaves, hsame]
    exact h
  · refine .inr ⟨hcancelled, fun result hresult => ?_⟩
    have hbetween := hdone result hresult
    rcases h with hsame | ⟨-, hdone'⟩
    · rwa [hsame] at hbetween
    · exact hdone' result hbetween

theorem Leaves.of_services (h : d'.services = d.services) : d.Leaves service d' :=
  .inl (by rw [Desk.service, Desk.service, h])

theorem Leaves.refl (d : Desk) : d.Leaves service d := .of_services rfl

theorem modify_leaves (d : Desk) {other : ServiceId} (h : service ≠ other) (f : Service → Service) :
    d.Leaves service { d with services := d.services.modify other f } := by
  refine .inl ?_
  rw [service_modify, if_neg fun hsame => h hsame.1]

theorem wake_leaves (d : Desk) {other : ServiceId} (h : service ≠ other) (r : Except Fault Plain) :
    d.Leaves service (d.wake other r) := by
  unfold wake
  split
  · exact modify_leaves d h _
  · exact .refl d

theorem interrupt_leaves (d : Desk) (other : ServiceId) : d.Leaves service (d.interrupt other) := by
  -- what is interrupted is marked so, and not yet done
  have hmarked (f : Service → Service) (hf : ∀ s, (f s).cancelled = true)
      (hstage : ∀ result, (f (d.service other)).stage ≠ .done result) :
      d.Leaves service { d with services := d.services.modify other f } := by
    rw [Leaves, service_modify]
    split
    · exact .inr ⟨hf _, fun result hresult => absurd hresult (hstage result)⟩
    · exact .inl rfl
  unfold interrupt
  split
  · exact .refl d
  · exact hmarked _ (fun _ => rfl) fun _ => nofun
  · rename_i hdone _
    exact hmarked _ (fun _ => rfl) hdone

theorem wakeAll_leaves (d : Desk) {ids : List ServiceId} (h : service ∉ ids) : d.Leaves service (d.wakeAll ids) := by
  unfold wakeAll
  induction ids generalizing d with
  | nil => exact .refl d
  | cons id ids ih =>
    have hfirst := d.wake_leaves (List.ne_of_not_mem_cons h) (.ok .null)
    exact hfirst.trans (ih _ (List.not_mem_of_not_mem_cons h))

theorem interruptAll_leaves (d : Desk) (ids : List ServiceId) : d.Leaves service (d.interruptAll ids) := by
  unfold interruptAll
  induction ids generalizing d with
  | nil => exact .refl d
  | cons id ids ih => exact (d.interrupt_leaves id).trans (ih _)

theorem open_leaves (d : Desk) (h : service < d.services.size) (run : RunId) (side : Side) (work : Work) :
    d.Leaves service (d.open_ run side work).2 := by
  refine .inl ?_
  rw [service_open, if_neg (Nat.ne_of_lt h)]

theorem publish_services (d : Desk) (event : Event) : (d.publish event).services = d.services := by
  have hpost (d : Desk) (run : RunId) (mail : Mail) : (d.post run mail).services = d.services := by
    simp only [post]
    split
    · rfl
    · split <;> rfl
  have hdeliver (d : Desk) (listener : Listener) : (deliver event d listener).services = d.services := by
    cases listener with
    | handler run body scope => exact hpost d run _
    | recorder => rfl
    | printer lead =>
      simp only [deliver]
      split <;> rfl
  have hfold (listeners : List Listener) (d : Desk) : (listeners.foldl (deliver event) d).services = d.services := by
    induction listeners generalizing d with
    | nil => rfl
    | cons listener listeners ih => exact (ih _).trans (hdeliver d listener)
  exact hfold _ _

/-- Those who wait for the last event are told when it has been handled. -/
theorem handled_leaves (d : Desk) (hrun : run < d.boxes.size) :
    d.Leaves service (d.handled run) ∨ ((d.handled run).box run).unfinished = 0 := by
  by_cases hleft : (d.box run).unfinished - 1 = 0
  · exact .inr ((d.handled_box hrun).2.2.trans hleft)
  · simp only [handled, if_neg hleft]
    exact .inl (.of_services rfl)

theorem handled_leaves_of_not_mem (d : Desk) (h : service ∉ (d.box run).joiners) : d.Leaves service (d.handled run) := by
  have hservices (f : Mailbox → Mailbox) : d.Leaves service (d.modifyBox run f) := .of_services rfl
  simp only [handled]
  split
  · exact (hservices _).trans (wakeAll_leaves _ h)
  · exact hservices _

/-- The run is spared: nothing arrives in its box, and a wait for its handlers goes on. -/
structure Spares (run : RunId) (d d' : Desk) : Prop where
  box : (d.box run).Gets [] (d'.box run)
  joins : ∀ service, service < d.services.size → (d.service service).run = run → (d.service service).work = .join →
    d.Leaves service d'

theorem Spares.of_same (hbox : d'.boxes = d.boxes) (hservices : d'.services = d.services) : d.Spares run d' := by
  refine ⟨?_, fun _ _ _ _ => .of_services hservices⟩
  rw [show d'.box run = d.box run by rw [Desk.box, Desk.box, hbox]]
  exact .refl _

structure Apart (run : RunId) (d d' : Desk) : Prop where
  onward : d.Onward d'
  published : d.host.published.size ≤ d'.host.published.size
  box : d'.host.published.size = d.host.published.size → d'.box run = d.box run
  joins : ∀ service, service < d.services.size → (d.service service).run = run → (d.service service).work = .join →
    d.Leaves service d'

theorem Apart.refl (d : Desk) : d.Apart run d := ⟨.refl d, Nat.le_refl _, fun _ => rfl, fun _ _ _ _ => .refl d⟩

theorem Apart.trans (h : d.Apart run d') (h' : d'.Apart run d'') : d.Apart run d'' := by
  refine ⟨h.onward.trans h'.onward, Nat.le_trans h.published h'.published, fun hsize => ?_,
    fun service hsize hrun hwork => ?_⟩
  · -- nothing was published between
    have hfirst : d'.host.published.size = d.host.published.size :=
      Nat.le_antisymm (hsize ▸ h'.published) h.published
    exact (h'.box (hsize.trans hfirst.symm)).trans (h.box hfirst)
  · obtain ⟨hrun', -, hwork'⟩ := h.onward.owner service hsize
    exact (h.joins service hsize hrun hwork).trans
      (h'.joins service (Nat.lt_of_lt_of_le hsize h.onward.size) (hrun'.trans hrun) (hwork'.trans hwork))

theorem Apart.of_silent (honward : d.Onward d') (h : d.Silent d')
    (hjoins : ∀ service, service < d.services.size → (d.service service).run = run → (d.service service).work = .join →
      d.Leaves service d') : d.Apart run d' :=
  ⟨honward, Nat.le_of_eq (congrArg (fun host => host.published.size) h.host).symm, fun _ => h.box run, hjoins⟩

theorem Apart.spares (h : d.Apart run d') (hquiet : d'.host.published.size ≤ d.host.published.size) : d.Spares run d' := by
  refine ⟨?_, h.joins⟩
  rw [h.box (Nat.le_antisymm hquiet h.published)]
  exact .refl _

variable {runs : Nat} {r : Run}

theorem Op.apart (hop : Op r d d') (hd : d.Orderly runs) (hidlers : r.Idlers d) (hother : run ≠ r.id) : d.Apart run d' := by
  have honward := hop.onward
  cases hop with
  | host host hbus hpublished =>
    exact ⟨honward, Nat.le_of_eq (congrArg Array.size hpublished).symm, fun _ => rfl, fun _ _ _ _ => .of_services rfl⟩
  | publish event =>
    have hsize : (d.publish event).host.published.size = d.host.published.size + 1 := by
      rw [d.publish_published, Array.size_push]
    refine ⟨honward, hsize ▸ Nat.le_succ _, fun hsame => ?_, fun _ _ _ _ => .of_services (d.publish_services event)⟩
    exact absurd (hsize.symm.trans hsame) (Nat.succ_ne_self _)
  | subscribe pattern body scope => exact ⟨honward, Nat.le_refl _, fun _ => rfl, fun _ _ _ _ => .of_services rfl⟩
  | revoke tokens => exact ⟨honward, Nat.le_refl _, fun _ => rfl, fun _ _ _ _ => .of_services rfl⟩
  | enqueue entry hentry => exact .of_silent honward ⟨rfl, rfl⟩ fun _ _ _ _ => .of_services rfl
  | open_ side work =>
    exact .of_silent honward ⟨rfl, rfl⟩ fun service hsize _ _ => d.open_leaves hsize r.id side work
  | wake =>
    refine .of_silent honward (d.wakeAll_silent _) fun service _ _ hwork => d.wakeAll_leaves fun hmem => ?_
    exact nomatch hwork.symm.trans (hidlers service hmem).2
  | interrupt ids => exact .of_silent honward (d.interruptAll_silent ids) fun _ _ _ _ => d.interruptAll_leaves ids
  | handled =>
    refine ⟨honward, Nat.le_of_eq (congrArg (fun host => host.published.size) (d.handled_host r.id)).symm,
      fun _ => d.handled_box_ne hother, fun service _ hrun _ => d.handled_leaves_of_not_mem fun hmem => ?_⟩
    exact hother (hrun.symm.trans (hd.joiners r.id service hmem).2)
  | box f hf =>
    exact ⟨honward, Nat.le_refl _, fun _ => box_modifyBox_ne d hother f, fun _ _ _ _ => .of_services rfl⟩

theorem ops_apart (hops : Relation.ReflTransGen (Op r) d d') (hd : d.Orderly runs) (hid : r.id < runs)
    (hidlers : r.Idlers d) (hother : run ≠ r.id) : d.Apart run d' := by
  induction hops with
  | refl => exact .refl d
  | tail hops hop ih =>
    exact ih.trans (hop.apart (hd.ops hid hops) (hidlers.onward (ops_onward hops) fun _ hmem => hmem) hother)

/-- A word from outside is for those who wait for it, and nobody waits for handlers there. -/
theorem wake_outside_spares (hd : d.Orderly runs) {other : ServiceId} (hmem : other ∈ d.outside)
    (hboxes : d'.boxes = d.boxes) (hservices : d'.services = d.services) (r : Except Fault Plain) :
    d.Spares run (d'.wake other r) := by
  refine ⟨?_, fun service _ _ hwork => ?_⟩
  · rw [(d'.wake_silent other r).box, show d'.box run = d.box run by rw [Desk.box, Desk.box, hboxes]]
    exact .refl _
  · have hbefore : d.Leaves service d' := .of_services hservices
    refine hbefore.trans (d'.wake_leaves (fun hsame => ?_) r)
    subst hsame
    exact (hd.outside service hmem).2 hwork

theorem answer_spares (hd : d.Orderly runs) (p : Plain) : d.Spares run (d.answer p) := by
  unfold answer
  split
  · exact .of_same rfl rfl
  · rename_i id rest hdrop
    have hmem : id ∈ d.outside := by
      have hid : id ∈ d.dialogs := (List.dropWhile_suffix _).subset (hdrop ▸ List.mem_cons_self)
      exact List.mem_append_left _ (List.mem_append_left _ hid)
    refine wake_outside_spares hd hmem ?_ ?_ _
    · rfl
    · rfl

theorem firstTimer_mem {timer : Time × ServiceId} (h : d.firstTimer? = some timer) : timer ∈ d.timers := by
  have hfold (choose : Option (Time × ServiceId) → Time × ServiceId → Option (Time × ServiceId))
      (hchoose : ∀ best t, choose best t = some t ∨ choose best t = best) (timers : List (Time × ServiceId))
      (best : Option (Time × ServiceId)) (h : timers.foldl choose best = some timer) :
      best = some timer ∨ timer ∈ timers := by
    induction timers generalizing best with
    | nil => exact .inl h
    | cons t timers ih =>
      rcases ih _ h with hfirst | hmem
      · rcases hchoose best t with hchosen | hchosen
        · rw [hchosen] at hfirst
          cases hfirst
          exact .inr List.mem_cons_self
        · rw [hchosen] at hfirst
          exact .inl hfirst
      · exact .inr (List.mem_cons_of_mem t hmem)
  refine (hfold _ (fun best t => ?_) d.timers none h).resolve_left (by simp)
  split
  · exact .inl rfl
  · split
    · exact .inl rfl
    · exact .inr rfl

theorem waitForWorld_spares (hd : d.Orderly runs) (h : d.waitForWorld? = some d') : d.Spares run d' := by
  unfold waitForWorld? at h
  split at h
  · rename_i id r rest htyped
    cases h
    have hmem : id ∈ d.outside := by
      refine List.mem_append_right _ ?_
      rw [htyped]
      exact List.mem_cons_self
    refine wake_outside_spares hd hmem ?_ ?_ _
    · rfl
    · rfl
  · split at h
    · cases h
    · rename_i due id htimer
      cases h
      have hmem : id ∈ d.outside :=
        List.mem_append_left _ (List.mem_append_right _ (List.mem_map_of_mem (firstTimer_mem htimer)))
      refine wake_outside_spares hd hmem ?_ ?_ _
      · rfl
      · rfl

end Desk

namespace Run

variable {r : Run} {d : Desk} {service : ServiceId} {run : RunId}

theorem answerCommand_boxes (r : Run) (d : Desk) (service : ServiceId) (answer : CommandAnswer) (args : Plain) :
    (r.answerCommand d service answer args).2.boxes = d.boxes ∧
      (r.answerCommand d service answer args).1.ending = r.ending := by
  unfold answerCommand
  split
  · split <;> exact ⟨rfl, rfl⟩
  · exact ⟨rfl, rfl⟩

theorem tickCommand_boxes (r : Run) (d : Desk) (service : ServiceId) (ticks : Nat) (answer : CommandAnswer) (args : Plain) :
    (r.tickCommand d service ticks answer args).2.boxes = d.boxes ∧
      (r.tickCommand d service ticks answer args).1.ending = r.ending := by
  cases ticks with
  | zero => exact r.answerCommand_boxes d service answer args
  | succ left => exact ⟨rfl, rfl⟩

/-- Who waits in vain for the handlers is noted in the box; otherwise services have nothing to do with mail. -/
theorem stepService_gets (r : Run) (d : Desk) (service : ServiceId) (run : RunId) :
    (d.box run).Gets [] ((r.stepService d service).2.box run) ∧ (r.stepService d service).1.ending = r.ending := by
  have hsame {r' : Run} {d' : Desk} (h : d'.boxes = d.boxes ∧ r'.ending = r.ending) :
      (d.box run).Gets [] (d'.box run) ∧ r'.ending = r.ending := by
    rw [show d'.box run = d.box run by rw [Desk.box, Desk.box, h.1]]
    exact ⟨.refl _, h.2⟩
  have hbegin (work : Work) :
      (d.box run).Gets [] ((r.beginService d service work).2.box run) ∧ (r.beginService d service work).1.ending = r.ending := by
    cases work with
    | dialog kind message default => exact hsame ⟨(d.beginDialog_still service kind message default).boxes, rfl⟩
    | sleep ms => exact hsame ⟨(d.beginSleep_still service ms).boxes, rfl⟩
    | command name args => exact hsame (r.tickCommand_boxes (d.recordCommand name args) service _ _ args)
    | request q => exact hsame (r.tickCommand_boxes (d.recordCommand _ _) service _ _ _)
    | idle =>
      simp only [beginService]
      split <;> exact hsame ⟨rfl, rfl⟩
    | join =>
      simp only [beginService]
      split
      · exact hsame ⟨rfl, rfl⟩
      · refine ⟨?_, rfl⟩
        rcases d.box_modifyBox r.id run fun b => { b with joiners := b.joiners ++ [service] } with hbox | hbox
        · change Mailbox.Gets [] _ ((d.modifyBox r.id fun b => { b with joiners := b.joiners ++ [service] }).box run)
          rw [hbox]
          exact .refl _
        · change Mailbox.Gets [] _ ((d.modifyBox r.id fun b => { b with joiners := b.joiners ++ [service] }).box run)
          rw [hbox]
          exact .none rfl rfl rfl
  simp only [stepService]
  split
  · exact hsame ⟨rfl, rfl⟩
  · exact hsame ⟨rfl, rfl⟩
  · exact hbegin _
  · exact hsame (r.tickCommand_boxes d service _ _ _)
  · exact hsame ⟨rfl, rfl⟩
  · exact hsame ⟨rfl, rfl⟩
  · exact hsame ⟨rfl, rfl⟩

end Run

namespace Run

variable {r : Run} {d : Desk} {t : Thread} {service : ServiceId}

theorem becomeIdle_leaves (d : Desk) (h : service ∉ r.governor.waiters) : d.Leaves service (r.becomeIdle d).2 := by
  unfold becomeIdle
  split
  · exact .refl d
  · exact d.wakeAll_leaves h

theorem retire_services (r : Run) (d : Desk) : (r.retire d).desk.services = d.services := by
  unfold retire
  dsimp only
  split <;> rfl

theorem leaveHandler_leaves (result : Except Raised Unit) (hrun : r.id < d.boxes.size)
    (hidle : service ∉ r.governor.waiters) :
    d.Leaves service (r.leaveHandler d result).desk ∨ ((r.leaveHandler d result).desk.box r.id).unfinished = 0 := by
  obtain ⟨r', d', hjudged, hstep⟩ := r.leaveHandler_judged d result
  obtain ⟨hid, hwaiters, hboxes, hleaves⟩ : r'.id = r.id ∧ r'.governor.waiters = r.governor.waiters ∧
      d'.boxes = d.boxes ∧ d.Leaves service d' := by
    cases hjudged with
    | well => exact ⟨rfl, rfl, rfl, .refl d⟩
    | aborted e => exact ⟨rfl, rfl, (d.interruptAll_silent _).boxes, d.interruptAll_leaves _⟩
  have hidled : d.Leaves service (becomeIdle { r' with governor := { r'.governor with handling := false } } d').2 := by
    refine hleaves.trans (becomeIdle_leaves d' ?_)
    rw [show ({ r' with governor := { r'.governor with handling := false } } : Run).governor.waiters =
      r.governor.waiters from hwaiters]
    exact hidle
  have hsize : r.id < (becomeIdle { r' with governor := { r'.governor with handling := false } } d').2.boxes.size := by
    rw [(becomeIdle_silent _ d').boxes, hboxes]
    exact hrun
  have hfinished : (r'.handlerFinished d').2 =
      (becomeIdle { r' with governor := { r'.governor with handling := false } } d').2.handled r.id :=
    congrArg (Desk.handled _) ((r'.handlerFinished_quiet d').id.trans hid)
  have hhandled : d.Leaves service (r'.handlerFinished d').2 ∨ ((r'.handlerFinished d').2.box r.id).unfinished = 0 := by
    rw [hfinished]
    exact (Desk.handled_leaves _ hsize).imp_left hidled.trans
  rcases hstep with hstep | hstep
  · rw [hstep]
    exact hhandled
  · rw [hstep, (retire_silent _ _).box]
    exact hhandled.imp_left fun hleft => hleft.trans (.of_services (retire_services _ _))

/-- The worker leaves the one alone that waits for its handlers, or no event is left to be handled. -/
theorem step_leaves (hrun : r.id < d.boxes.size) (hsize : service < d.services.size)
    (hwork : (d.service service).work = .join) (hidlers : r.Idlers d) (hfits : t.Fits) (hsided : t.Sided .worker) :
    d.Leaves service (step .worker r d t).desk ∨ ((step .worker r d t).desk.box r.id).unfinished = 0 := by
  have hidle : service ∉ r.governor.waiters := fun hmem => nomatch hwork.symm.trans (hidlers service hmem).2
  cases hsided.turn hfits with
  | computes hcomputes =>
    have hdeed := (@step_calm .worker r d t hcomputes).deed
    generalize (step .worker r d t).desk = d' at hdeed
    cases hdeed with
    | host | subscribe => exact .inl (.of_services rfl)
    | publish event => exact .inl (.of_services (d.publish_services event))
  | checkpoint stack =>
    simp only [step, checkpoint]
    split
    · exact .inl (.refl d)
    · split <;> exact .inl (.refl d)
  | request work stack =>
    simp only [step, request]
    split
    · exact .inl (.refl d)
    · have hopened := d.open_leaves hsize r.id .worker work
      exact .inl (hopened.trans (becomeIdle_leaves _ hidle))
  | resume id stack =>
    simp only [step, resume, Bool.false_eq_true, if_false]
    split <;> exact .inl (.refl d)
  | handled signal => exact leaveHandler_leaves (.ok ()) hrun hidle
  | failed e => exact leaveHandler_leaves (.error e) hrun hidle
  | start => exact .inl (.refl d)
  | receive =>
    simp only [step, receive]
    split
    · exact .inl (.of_services (retire_services r d))
    · split
      · exact .inl (.of_services rfl)
      · split <;> exact .inl (.of_services rfl)
  | finished => exact .inl (.refl d)

theorem interruptWorker_leaves (hrested : t.Rested) : d.Leaves service (r.interruptWorker d t).desk := by
  cases hrested with
  | resume id stack =>
    simp only [interruptWorker, resume, if_true]
    exact .refl d
  | recheck stack => exact .refl d
  | bare hresume hrecheck =>
    simp only [interruptWorker]
    exact .of_services (retire_services _ d)

end Run

namespace World

variable {w w' : World} {run : RunId}

theorem start_published (w : World) (l : Launch) :
    w.desk.host.published.size < (w.start l).2.desk.host.published.size := by
  have hpublish (w : World) (event : Event) :
      (w.publish event).desk.host.published.size = w.desk.host.published.size + 1 := by
    rw [World.publish, Desk.publish_published, Array.size_push]
  obtain ⟨-, hdesk⟩ := w.nameFor_same l.name
  have hsize : w.desk.host.published.size = (w.nameFor l.name).2.desk.host.published.size := by rw [hdesk]
  rw [hsize]
  simp only [World.start]
  generalize (w.nameFor l.name) = named
  have hnamed (event : Event) : named.2.desk.host.published.size < (named.2.publish event).desk.host.published.size := by
    rw [hpublish]
    exact Nat.lt_succ_self _
  have htwice (event report : Event) :
      named.2.desk.host.published.size < ((named.2.publish event).publish report).desk.host.published.size := by
    rw [hpublish, hpublish]
    exact Nat.lt_succ_of_lt (Nat.lt_succ_self _)
  split
  · split
    · exact htwice _ _
    · exact hnamed _
  · split
    · exact hnamed _
    · exact hnamed _

theorem cancel_spares (w : World) (id : RunId) : w.desk.Spares run (w.cancel id).desk := by
  simp only [World.cancel]
  split
  · exact .of_same rfl rfl
  · refine ⟨?_, fun service _ _ _ => ?_⟩
    · change (w.desk.box run).Gets [] ((w.desk.interruptAll (w.run id).governor.pending).box run)
      rw [(w.desk.interruptAll_silent _).box]
      exact .refl _
    · exact w.desk.interruptAll_leaves (w.run id).governor.pending

theorem Driven.spares (h : w.Driven w') (hw : w.Orderly)
    (hquiet : w'.desk.host.published.size ≤ w.desk.host.published.size) : w.desk.Spares run w'.desk := by
  cases h with
  | start l => exact absurd hquiet (Nat.not_le.2 (w.start_published l))
  | publish event =>
    rw [World.publish, Desk.publish_published, Array.size_push] at hquiet
    exact absurd hquiet (Nat.not_succ_le_self _)
  | @launch name tokens source program hparse limits startedAt heap scopes =>
    refine ⟨?_, fun _ _ _ _ => .of_services rfl⟩
    rw [w.box_launch name program limits startedAt heap scopes run]
    exact .refl _
  | cancel id => exact w.cancel_spares id
  | answer p => exact Desk.answer_spares hw.desk p
  | wait | turn | configure | listen | unlisten | host => exact .of_same rfl rfl

end World

namespace Moment

variable {m n : Moment} {id other : RunId} {side : Side}

theorem Acts.spares (hacts : Acts other side m n) (hm : Possible m) (hne : id ≠ other)
    (hquiet : n.desk.host.published.size ≤ m.desk.host.published.size) : m.desk.Spares id n.desk := by
  have horderly := hm.orderly
  have hother := horderly.acting hacts
  have hname := hm.attended.named hother
  obtain ⟨ready, s, hready, hat, hdeals⟩ := hacts.deals hm hother
  have hapart : Desk.Apart id { m.desk with ready } s.desk := by
    refine Desk.ops_apart hdeals.desk (horderly.desk.fewer hready) (Nat.lt_of_le_of_lt (Nat.le_of_eq hname) hother) ?_ ?_
    · exact horderly.idlers other hother
    · rw [hname]
      exact hne
  rw [hat.desk] at hquiet ⊢
  obtain ⟨hbox, hjoins⟩ := hapart.spares hquiet
  exact ⟨hbox, hjoins⟩

/-- A move that is not a step of the run, and publishes nothing, spares the run, or it is a step of a service of it. -/
theorem Move.spares (hn : Move m n) (hm : Possible m) (hacts : ∀ side, ¬Acts id side m n)
    (hquiet : n.desk.host.published.size ≤ m.desk.host.published.size) :
    m.desk.Spares id n.desk ∨ ∃ service ready, service < m.desk.services.size ∧ (m.desk.service service).run = id ∧
      n.desk = ((m.run id).stepService { m.desk with ready } service).2 := by
  have horderly := hm.orderly
  have hof {other : RunId} {side : Side} (hother : Acts other side m n) : m.desk.Spares id n.desk := by
    by_cases hsame : id = other
    · subst hsame
      exact absurd hother (hacts side)
    · exact hother.spares hm hsame hquiet
  cases hn with
  | reorder _ => exact .inl (.of_same rfl rfl)
  | next hn =>
    cases hn with
    | driven hdriven => exact .inl (hdriven.spares ⟨horderly.desk, horderly.idlers⟩ hquiet)
    | waited _ hdesk => exact .inl (Desk.waitForWorld_spares horderly.desk hdesk)
    | @entry w entry ready hpop hentry =>
      have hready := Queue.toList_of_pop? _ _ _ hpop
      have hknows : w.desk.Knows w.runs.size entry := horderly.desk.ready entry (hready ▸ List.mem_cons_self)
      cases entry with
      | thread run side => exact absurd rfl (hentry run side)
      | gathered | forget | controller => exact .inl (.of_same rfl rfl)
      | service service =>
        by_cases howner : (w.desk.service service).run = id
        · refine .inr ⟨service, ready, hknows, howner, ?_⟩
          rw [← howner]
          rfl
        · have hserves := (w.run (w.desk.service service).run).stepService_serves (w.dequeued ready).desk service
          have hgets := (w.run (w.desk.service service).run).stepService_gets (w.dequeued ready).desk service id
          refine .inl ⟨hgets.1, fun other _ hrun _ => .inl (hserves.others other fun hsame => ?_)⟩
          exact howner (hsame ▸ hrun)
    | thread hpop => exact .inl (hof (.first hpop))
    | step hpace => exact .inl (hof (.step hpace))
    | @rest w active side s _ =>
      obtain ⟨ready, hdesk⟩ := w.rest_desk active side s
      refine .inl ?_
      change s.desk.Spares id (w.rest active side s).desk
      rw [hdesk]
      exact .of_same rfl rfl

end Moment

end DeskScript
