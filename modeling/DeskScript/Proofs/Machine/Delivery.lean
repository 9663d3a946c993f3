import DeskScript.Proofs.Machine.Exclusion
import DeskScript.Proofs.Machine.Settling

set_option autoImplicit false

/-!
# Events are handled once each, in order

What is delivered to a run waits in its box until a handler is started for it: so the mail delivered so far is the mail
started so far, and then what is in the box. The main thread waits for the handlers at its end, and when it has heard that
all are over, the box is empty and is closed. Main statement: `handlers_run_in_order`.
-/

namespace DeskScript

namespace Desk

structure Joins (d : Desk) (id : RunId) (service : ServiceId) : Prop where
  opened : service < d.services.size
  owner : (d.service service).run = id
  work : (d.service service).work = .join
  waits : (d.service service).cancelled = false → (d.service service).stage.isCounting = false
  woken : (d.service service).cancelled = false → ∀ r, (d.service service).stage = .woken r → (d.box id).unfinished = 0
  done : ∀ result, (d.service service).stage = .done result → result ≠ .interrupted → (d.box id).unfinished = 0

/-- What is known of the box of a run when its main thread has come to its end. -/
def Ends (d : Desk) (id : RunId) : Thread → Prop
  | ⟨.request work, [.closing _]⟩ => work = .join
  | ⟨.resume service _, [.closing _]⟩ => d.Joins id service
  | ⟨.replied _, [.closing _]⟩ => (d.box id).unfinished = 0
  | ⟨.settle ending, _⟩ => (d.box id).closed = true ∧ ∀ v, ending = .completed v → (d.box id).mail.toList = []
  | _ => True

variable {d d' : Desk} {id : RunId} {service : ServiceId} {t : Thread}

theorem Joins.leaves (h : d.Joins id service)
    (hlater : service < d'.services.size ∧ (d.service service).Later (d'.service service)) (hleaves : d.Leaves service d')
    (hzero : (d.box id).unfinished = 0 → (d'.box id).unfinished = 0) : d'.Joins id service := by
  obtain ⟨hsize, hlater⟩ := hlater
  refine ⟨hsize, hlater.run.trans h.owner, hlater.work.trans h.work, fun hgoes => ?_, fun hgoes r hwoken => ?_,
    fun result hdone hheard => ?_⟩
  · rcases hleaves with hsame | ⟨hcancelled, -⟩
    · rw [hsame] at hgoes ⊢
      exact h.waits hgoes
    · exact nomatch hgoes.symm.trans hcancelled
  · rcases hleaves with hsame | ⟨hcancelled, -⟩
    · rw [hsame] at hgoes hwoken
      exact hzero (h.woken hgoes r hwoken)
    · exact nomatch hgoes.symm.trans hcancelled
  · refine hzero (h.done result ?_ hheard)
    rcases hleaves with hsame | ⟨-, hbefore⟩
    · rwa [hsame] at hdone
    · exact hbefore result hdone

/-- Once no event is left to be handled, whatever it is told is true. -/
theorem Joins.finished (h : d.Joins id service) (honward : d.Onward d') (hzero : (d'.box id).unfinished = 0) :
    d'.Joins id service := by
  have hlater := honward.later h.opened
  have hsize := Nat.lt_of_lt_of_le h.opened honward.size
  refine ⟨hsize, hlater.run.trans h.owner, hlater.work.trans h.work, fun hgoes => ?_, fun _ _ _ => hzero,
    fun _ _ _ => hzero⟩
  have hbefore : (d.service service).cancelled = false := by
    rw [← Bool.not_eq_true]
    intro hcancelled
    exact nomatch hgoes.symm.trans (hlater.cancelled hcancelled)
  cases honward.stage service hsize with
  | same _ hstage =>
    rw [hstage]
    exact h.waits hbefore
  | woken _ _ _ hwoken _ =>
    rw [hwoken]
    rfl
  | opened hnew _ _ => exact absurd h.opened (Nat.not_lt.2 hnew)

theorem Joins.setStage (h : d.Joins id service) {stage : Stage}
    (hservices : d'.services = d.services.modify service fun s => { s with stage })
    (hbox : (d'.box id).unfinished = (d.box id).unfinished) (hwaits : stage.isCounting = false)
    (hwoken : ∀ r, stage ≠ .woken r)
    (hdone : ∀ result, stage = .done result → result ≠ .interrupted → (d.box id).unfinished = 0) : d'.Joins id service := by
  have hservice : d'.service service = { d.service service with stage } := by
    have hmodify := d.service_modify service service fun s => { s with stage }
    rw [if_pos ⟨rfl, h.opened⟩] at hmodify
    rw [← hmodify, Desk.service, Desk.service, hservices]
  refine ⟨?_, ?_, ?_, fun _ => ?_, fun _ r hstage => ?_, fun result hstage hheard => ?_⟩
  · rw [hservices, Array.size_modify]
    exact h.opened
  · rw [hservice]
    exact h.owner
  · rw [hservice]
    exact h.work
  · rw [hservice]
    exact hwaits
  · rw [hservice] at hstage
    exact absurd hstage (hwoken r)
  · rw [hservice] at hstage
    exact hbox.trans (hdone result hstage hheard)

theorem Joins.stepped {r : Run} (h : d.Joins r.id service) : (r.stepService d service).2.Joins r.id service := by
  have hcomplete (result : ServiceResult) (hheard : result ≠ .interrupted → (d.box r.id).unfinished = 0) :
      (d.complete service result).Joins r.id service := by
    have hservices : (d.complete service result).services =
        d.services.modify service fun s => { s with stage := .done result } := rfl
    have hbox := box_of_still (d.complete_still service result) r.id
    refine h.setStage hservices (congrArg Mailbox.unfinished hbox) rfl (by simp) fun _ hstage hresult => ?_
    cases hstage
    exact hheard hresult
  simp only [Run.stepService]
  split
  · exact h
  · exact hcomplete .interrupted fun hne => absurd rfl hne
  · rw [h.work]
    simp only [Run.beginService]
    split
    · rename_i hzero
      exact hcomplete _ fun _ => hzero
    · have hservices : ((d.modifyBox r.id fun b => { b with joiners := b.joiners ++ [service] }).setStage service
          .parked).services = d.services.modify service fun s => { s with stage := .parked } := rfl
      have hunfinished : (((d.modifyBox r.id fun b => { b with joiners := b.joiners ++ [service] }).setStage service
          .parked).box r.id).unfinished = (d.box r.id).unfinished := by
        rw [box_of_still (Desk.setStage_still _ service .parked)]
        rcases d.box_modifyBox r.id r.id fun b => { b with joiners := b.joiners ++ [service] } with hbox | hbox
        · rw [hbox]
        · rw [hbox]
      exact h.setStage hservices hunfinished rfl (by simp) (by simp)
  · rename_i hgoes hstage
    cases (congrArg Stage.isCounting hstage).symm.trans (h.waits hgoes)
  · rename_i hgoes hstage
    cases (congrArg Stage.isCounting hstage).symm.trans (h.waits hgoes)
  · rename_i reply hgoes hstage
    exact hcomplete _ fun _ => h.woken hgoes reply hstage
  · exact h

theorem Joins.served {r : Run} (h : d.Joins r.id service) (other : ServiceId) :
    (r.stepService d other).2.Joins r.id service := by
  by_cases hsame : service = other
  · subst hsame
    exact h.stepped
  · have hserves := r.stepService_serves d other
    have hsize := Nat.lt_of_lt_of_eq h.opened hserves.size.symm
    refine h.leaves ⟨hsize, r.stepService_later d other h.opened⟩ (.inl (hserves.others service hsame)) fun hzero => ?_
    rw [(r.stepService_gets d other r.id).1.unfinished, hzero, Mailbox.accepted_nil]
    rfl

theorem Joins.opened_by (d : Desk) (id : RunId) : (d.open_ id .main .join).2.Joins id (d.open_ id .main .join).1 := by
  have hservice : (d.open_ id .main .join).2.service (d.open_ id .main .join).1 = { run := id, side := .main, work := .join } := by
    rw [service_open]
    exact if_pos rfl
  have hsize : (d.open_ id .main .join).1 < (d.open_ id .main .join).2.services.size := by
    rw [size_open]
    exact Nat.lt_succ_self _
  refine ⟨hsize, ?_, ?_, fun _ => ?_, fun _ r hwoken => ?_, fun result hdone => ?_⟩
  all_goals rw [hservice] at *
  · rfl
  · cases hwoken
  · cases hdone

theorem ends_of_body (hfits : t.Fits) (hbody : InBody t.stack) : d.Ends id t := by
  have hout (v : Value) : ¬InBody [.closing v] := by
    rintro (hlast | hlast) <;> cases hlast
  unfold Ends
  split
  · exact absurd hbody (hout _)
  · exact absurd hbody (hout _)
  · exact absurd hbody (hout _)
  · exact absurd hfits hbody.ne_nil
  · trivial

theorem Ends.keep (h : d.Ends id t) (hzero : (d.box id).unfinished = 0 → (d'.box id).unfinished = 0)
    (hclosed : (d.box id).closed = true → (d'.box id).closed = true ∧ (d'.box id).mail.toList = (d.box id).mail.toList)
    (hjoins : ∀ service, d.Joins id service → d'.Joins id service) : d'.Ends id t := by
  unfold Ends at h ⊢
  split
  · exact h
  · exact hjoins _ h
  · exact hzero h
  · obtain ⟨hshut, hempty⟩ := h
    obtain ⟨hshut', hmail⟩ := hclosed hshut
    exact ⟨hshut', fun v hv => hmail.trans (hempty v hv)⟩
  · trivial

end Desk

namespace Run

variable {r : Run} {d : Desk} {t : Thread}

theorem close_ends (hrun : r.id < d.boxes.size) {ending : Ending}
    (hempty : ∀ v, ending = .completed v → (d.box r.id).mail.toList = []) :
    (r.close d ending).desk.Ends r.id (r.close d ending).thread := by
  obtain ⟨-, hbox⟩ := close_gets hrun ending
  refine ⟨hbox.closed, fun v hv => ?_⟩
  rw [hbox.mail, Mailbox.accepted_nil, List.append_nil]
  exact hempty v hv

theorem body_of_computes (hfits : t.Fits) (hcomputes : t.computes = true) : InBody t.stack := by
  rcases Step.fits_cases hfits with hbody | ⟨v, hclosing⟩ | ⟨hempty, -⟩
  · exact hbody
  · obtain ⟨control, stack⟩ := t
    obtain rfl : stack = [.closing v] := hclosing
    -- only the answer of a service fits there, and it ends the run
    cases control with
    | statements | perform => exact nomatch hfits.1.1
    | evaluate | value | recheck | clear | passed => exact nomatch hfits.1
    | _ => cases hcomputes
  · exact absurd hempty (hfits.of_computes hcomputes).1

theorem request_ends {work : Work} {stack : List Frame} (h : d.Ends r.id ⟨.request work, stack⟩)
    (hfits : (⟨.request work, stack⟩ : Thread).Fits) :
    (step .main r d ⟨.request work, stack⟩).desk.Ends r.id (step .main r d ⟨.request work, stack⟩).thread := by
  simp only [step, request]
  split
  · trivial
  · cases stack with
    | nil => trivial
    | cons frame rest =>
      obtain ⟨hneed, -, hbelow⟩ := hfits
      cases frame with
      | closing v =>
        obtain rfl : rest = [] := hbelow
        obtain rfl : work = .join := h
        exact Desk.Joins.opened_by d r.id
      | _ => trivial

theorem resume_ends {service : ServiceId} {releases : Bool} {stack : List Frame}
    (h : d.Ends r.id ⟨.resume service releases, stack⟩) (hfits : (⟨.resume service releases, stack⟩ : Thread).Fits) :
    (step .main r d ⟨.resume service releases, stack⟩).desk.Ends r.id
      (step .main r d ⟨.resume service releases, stack⟩).thread := by
  simp only [step, resume, Bool.false_eq_true, if_false]
  split
  · trivial
  · rename_i result hheard hdone
    cases stack with
    | nil => trivial
    | cons frame rest =>
      obtain ⟨hneed, -, hbelow⟩ := hfits
      cases frame with
      | closing v =>
        obtain rfl : rest = [] := hbelow
        have hjoins : d.Joins r.id service := h
        exact hjoins.done result hdone hheard
      | _ => trivial
  · trivial

/-- The main thread goes one step, and knows what it has to know of its box. -/
theorem step_ends (h : d.Ends r.id t) (hrun : r.id < d.boxes.size)
    (hcounted : (d.box r.id).unfinished = 0 → (d.box r.id).mail.toList = []) (hfits : t.Fits) (hsided : t.Sided .main)
    (hnext : (step .main r d t).thread.Fits) : (step .main r d t).desk.Ends r.id (step .main r d t).thread := by
  have hfailed (e : Raised) : ∀ v, endingOf e = .completed v → (d.box r.id).mail.toList = [] := by
    intro v hv
    unfold endingOf at hv
    split at hv
    · split at hv <;> cases hv
    all_goals cases hv
  cases hsided.turn hfits with
  | computes hcomputes =>
    have hbody : InBody t.stack := body_of_computes hfits hcomputes
    refine Desk.ends_of_body hnext (step_inBody hfits hnext hbody ?_)
    obtain ⟨control, stack⟩ := t
    rintro ⟨rfl | rfl, ⟨signal, rfl⟩ | ⟨e, rfl⟩⟩ <;> cases hcomputes
  | checkpoint stack =>
    simp only [step, checkpoint]
    split
    · trivial
    · split <;> trivial
  | request work stack => exact request_ends h hfits
  | resume service stack => exact resume_ends h hfits
  | ran signal => exact rfl
  | stopped e hframe =>
    rcases hframe with rfl | ⟨v, rfl⟩
    · exact close_ends hrun (hfailed e)
    · exact close_ends hrun (hfailed e)
  | joined result v =>
    simp only [step, reply]
    split
    · exact close_ends hrun (hfailed _)
    · exact close_ends hrun fun _ _ => hcounted h
  | start => trivial
  | settle ending => trivial
  | finished => trivial

end Run

namespace Moment

def published (m n : Moment) : List Event := n.desk.host.published.toList.drop m.desk.host.published.size

/-- The mail that is delivered to a run by a move: in the order of publishing, and for one event in the order in which the
handlers that it matches were registered. A run that is closed takes none. -/
def delivered (id : RunId) (m n : Moment) : List Mail :=
  if (m.desk.box id).closed then [] else (published m n).flatMap (m.desk.host.bus.mailFor id)

def started (id : RunId) (m n : Moment) : List Mail :=
  if (m.thread id .worker).stack.isEmpty && !(n.thread id .worker).stack.isEmpty then (m.desk.box id).mail.toList.take 1
  else []

variable {m n : Moment} {id : RunId} {side : Side}

theorem published_of_append {events : List Event}
    (h : n.desk.host.published.toList = m.desk.host.published.toList ++ events) : published m n = events := by
  rw [published, h]
  exact List.drop_left' Array.length_toList

theorem published_of_eq (h : n.desk.host.published = m.desk.host.published) : published m n = [] :=
  published_of_append (by rw [h, List.append_nil])

theorem published_eq_nil (h : published m n = []) : n.desk.host.published.size ≤ m.desk.host.published.size := by
  have hlength := congrArg List.length h
  rw [published, List.length_drop, Array.length_toList] at hlength
  exact Nat.le_of_sub_eq_zero hlength

theorem delivered_of_append {events : List Event}
    (h : n.desk.host.published.toList = m.desk.host.published.toList ++ events) :
    delivered id m n = (m.desk.box id).accepted (events.flatMap (m.desk.host.bus.mailFor id)) := by
  rw [delivered, published_of_append h]
  rfl

theorem delivered_of_nil (h : published m n = []) : delivered id m n = [] := by
  rw [delivered, h, List.flatMap_nil, ite_self]

theorem started_of_busy (h : (m.thread id .worker).stack ≠ []) : started id m n = [] := by
  rw [started, List.isEmpty_eq_false_iff.2 h]
  rfl

theorem started_of_bare (h : (n.thread id .worker).stack = []) : started id m n = [] := by
  rw [started, h, List.isEmpty_nil, Bool.not_true, Bool.and_false]
  rfl

theorem started_of_iff (h : (n.thread id .worker).stack = [] ↔ (m.thread id .worker).stack = []) : started id m n = [] := by
  by_cases hbare : (m.thread id .worker).stack = []
  · exact started_of_bare (h.2 hbare)
  · exact started_of_busy hbare

/-- What a thread that acts does with the mail of its run. -/
theorem Acts.mails (hacts : Acts id side m n) (hm : Possible m) (hid : id < m.size) : ∃ ready s, n.At id side s ∧
    n.thread id side.other = m.thread id side.other ∧ s.Mails side (m.run id) { m.desk with ready } (m.thread id side) := by
  have hname := hm.attended.named hid
  have hfits := hm.sound.thread id side
  have hsided := hm.attended.sided hid side
  have hrun : (m.run id).id < m.desk.boxes.size := by
    rw [hname, hm.orderly.desk.boxes]
    exact hid
  have hnext := (hm.move hacts.move).sound.thread id side
  obtain ⟨hother, ready, -, hat | ⟨rfl, hrest, hat⟩⟩ := hacts.stride hm.sound
  · rw [hat.thread] at hnext
    exact ⟨ready, _, hat, hother, Run.step_mails hrun hfits hsided hnext⟩
  · exact ⟨ready, _, hat, hother, Run.interruptWorker_mails (hsided.rested hfits hrest)⟩

/-- What was in the box and what is delivered, is started or stays in the box. -/
theorem Acts.conserves (hacts : Acts id side m n) (hm : Possible m) (hid : id < m.size) :
    (m.desk.box id).mail.toList ++ delivered id m n = started id m n ++ (n.desk.box id).mail.toList := by
  have hname := hm.attended.named hid
  obtain ⟨ready, s, hat, hother, hmails⟩ := hacts.mails hm hid
  have hstill (hside : side = .main) : n.thread id .worker = m.thread id .worker := by
    subst hside
    exact hother
  cases hmails with
  | posted events hpublished hgets hevents hbusy =>
    rw [hname] at hgets
    rw [← hat.desk] at hpublished hgets
    have hnone : started id m n = [] := by
      refine started_of_iff ?_
      cases side with
      | main => rw [hstill rfl]
      | worker =>
        rw [hat.thread]
        exact hbusy rfl
    rw [delivered_of_append hpublished, hnone, List.nil_append]
    exact hgets.mail.symm
  | began mail rest hside hbare hopen hpop hpublished hgets hbusy hbegins =>
    subst hside
    rw [hname] at hgets hpop
    rw [← hat.desk] at hpublished hgets
    rw [delivered_of_nil (published_of_eq hpublished), List.append_nil, hgets]
    have hmail := Queue.toList_of_pop? _ _ _ hpop
    rw [started, hat.thread, hbare, List.isEmpty_nil, List.isEmpty_eq_false_iff.2 hbusy]
    change (m.desk.box id).mail.toList = (m.desk.box id).mail.toList.take 1 ++ rest.toList
    rw [show (m.desk.box id).mail.toList = mail :: rest.toList from hmail]
    rfl
  | handled hside hbusy hbare hpublished hmail hclosed hunfinished =>
    subst hside
    rw [hname] at hmail
    rw [← hat.desk] at hpublished hmail
    rw [delivered_of_nil (published_of_eq hpublished), started_of_busy hbusy, List.append_nil, hmail]
    rfl
  | closed hside hpublished hgets =>
    rw [hname] at hgets
    rw [← hat.desk] at hpublished hgets
    rw [delivered_of_nil (published_of_eq hpublished), started_of_iff (by rw [hstill hside]), List.append_nil, hgets.mail,
      Mailbox.accepted_nil, List.append_nil]
    rfl

/-- The box of a run at a moment: its mail can be read, and those not yet handled are counted. -/
structure Accounted (id : RunId) (m : Moment) : Prop where
  readable : ∀ mail ∈ (m.desk.box id).mail.toList, mail.event.payload.Readable
  bare : (m.thread id .worker).stack = [] → (m.desk.box id).unfinished = (m.desk.box id).mail.toList.length
  busy : (m.thread id .worker).stack ≠ [] → (m.desk.box id).unfinished = (m.desk.box id).mail.toList.length + 1
  ends : m.desk.Ends id (m.thread id .main)
  completed : ∀ v, (m.run id).ending = some (.completed v) →
    (m.desk.box id).closed = true ∧ (m.desk.box id).mail.toList = []

theorem Accounted.of_zero (h : Accounted id m) (hzero : (m.desk.box id).unfinished = 0) :
    (m.thread id .worker).stack = [] ∧ (m.desk.box id).mail.toList = [] := by
  by_cases hbare : (m.thread id .worker).stack = []
  · exact ⟨hbare, List.eq_nil_of_length_eq_zero ((h.bare hbare).symm.trans hzero)⟩
  · exact absurd ((h.busy hbare).symm.trans hzero) (Nat.succ_ne_zero _)

theorem Accounted.launched (hbox : m.desk.box id = {}) (hunbegun : (m.run id).Unbegun)
    (hthreads : ∀ side, m.thread id side = {}) : Accounted id m := by
  refine ⟨?_, fun _ => ?_, fun hbusy => ?_, ?_, fun v hending => ?_⟩
  · rw [hbox]
    exact nofun
  · rw [hbox]
    rfl
  · rw [hthreads] at hbusy
    exact absurd rfl hbusy
  · rw [hthreads]
    trivial
  · exact absurd hending (hunbegun.ending v)

/-- Nothing has arrived, and the threads are where they were. -/
theorem Accounted.spared (h : Accounted id m) (hgets : (m.desk.box id).Gets [] (n.desk.box id))
    (hjoins : ∀ service, m.desk.Joins id service → n.desk.Joins id service)
    (hthreads : ∀ side, n.thread id side = m.thread id side) (hending : (n.run id).ending = (m.run id).ending) :
    Accounted id n := by
  have hmail : (n.desk.box id).mail.toList = (m.desk.box id).mail.toList := by
    rw [hgets.mail, Mailbox.accepted_nil, List.append_nil]
  have hunfinished : (n.desk.box id).unfinished = (m.desk.box id).unfinished := by
    rw [hgets.unfinished, Mailbox.accepted_nil]
    rfl
  refine ⟨?_, fun hbare => ?_, fun hbusy => ?_, ?_, fun v hv => ?_⟩
  · rw [hmail]
    exact h.readable
  · rw [hthreads] at hbare
    rw [hunfinished, hmail]
    exact h.bare hbare
  · rw [hthreads] at hbusy
    rw [hunfinished, hmail]
    exact h.busy hbusy
  · rw [hthreads]
    refine h.ends.keep (fun hzero => ?_) (fun hclosed => ⟨hgets.closed.trans hclosed, hmail⟩) hjoins
    exact hunfinished.trans hzero
  · rw [hending] at hv
    rw [hgets.closed, hmail]
    exact h.completed v hv

theorem Accounted.aside (h : Accounted id m) (hm : Possible m) (hid : id < m.size) (hn : Move m n)
    (hacts : ∀ side, ¬Acts id side m n) (hquiet : published m n = []) :
    Accounted id n ∧ (m.desk.box id).Gets [] (n.desk.box id) := by
  obtain ⟨hthreads, hending⟩ := hn.stands hm.sound hid hacts
  rcases hn.spares hm hacts (published_eq_nil hquiet) with hspares | ⟨service, ready, hsize, howner, hdesk⟩
  · refine ⟨h.spared hspares.box (fun service hjoins => ?_) hthreads hending, hspares.box⟩
    have hleaves := hspares.joins service hjoins.opened hjoins.owner hjoins.work
    refine hjoins.leaves (hn.service hm hjoins.opened) hleaves fun hzero => ?_
    rw [hspares.box.unfinished, hzero, Mailbox.accepted_nil]
    rfl
  · have hname := hm.attended.named hid
    have hgets : (m.desk.box id).Gets [] (n.desk.box id) := by
      rw [hdesk]
      exact ((m.run id).stepService_gets { m.desk with ready } service id).1
    refine ⟨h.spared hgets (fun other hjoins => ?_) hthreads hending, hgets⟩
    have hjoins' : Desk.Joins { m.desk with ready } (m.run id).id other := by
      rw [hname]
      exact ⟨hjoins.opened, hjoins.owner, hjoins.work, hjoins.waits, hjoins.woken, hjoins.done⟩
    have hserved := hjoins'.served service
    rw [hname] at hserved
    rw [hdesk]
    exact hserved

/-- A step of the worker keeps what the main thread can tell at its end. -/
theorem Accounted.ends_worker (h : Accounted id m) (hm : Possible m) (hid : id < m.size) (hacts : Acts id .worker m n)
    (hzero : (m.desk.box id).unfinished = 0 → (n.desk.box id).unfinished = 0)
    (hclosed : (m.desk.box id).closed = true →
      (n.desk.box id).closed = true ∧ (n.desk.box id).mail.toList = (m.desk.box id).mail.toList) :
    n.desk.Ends id (n.thread id .main) := by
  have hname := hm.attended.named hid
  have horderly := hm.orderly
  have hfits := hm.sound.thread id .worker
  have hsided := hm.attended.sided hid .worker
  have hrun : (m.run id).id < m.desk.boxes.size := by
    rw [hname, horderly.desk.boxes]
    exact hid
  obtain ⟨hother, ready, -, hstride⟩ := hacts.stride hm.sound
  have hmain : n.thread id .main = m.thread id .main := hother
  rw [hmain]
  refine h.ends.keep hzero hclosed fun service hjoins => ?_
  have hlater := hacts.move.service hm hjoins.opened
  have hsize : service < m.desk.services.size := hjoins.opened
  rcases hstride with hat | ⟨-, hrest, hat⟩
  · have hidlers : (m.run id).Idlers { m.desk with ready } := horderly.idlers id hid
    have hdeals := Run.step_deals (r := m.run id) (d := { m.desk with ready }) hfits hsided
    have honward : Desk.Onward { m.desk with ready } n.desk := by
      rw [hat.desk]
      exact Desk.ops_onward hdeals.desk
    rcases Run.step_leaves (d := { m.desk with ready }) hrun hsize hjoins.work hidlers hfits hsided with hleaves | hnone
    · rw [← hat.desk] at hleaves
      exact hjoins.leaves hlater hleaves hzero
    · rw [← hat.desk, hname] at hnone
      have hjoins' : Desk.Joins { m.desk with ready } id service :=
        ⟨hjoins.opened, hjoins.owner, hjoins.work, hjoins.waits, hjoins.woken, hjoins.done⟩
      exact hjoins'.finished honward hnone
  · have hleaves : Desk.Leaves service { m.desk with ready } _ :=
      Run.interruptWorker_leaves (r := m.run id) (hsided.rested hfits hrest)
    rw [← hat.desk] at hleaves
    exact hjoins.leaves hlater hleaves hzero

theorem Accounted.settled (h : Accounted id m) {ending : Ending} (hsettle : (m.thread id .main).control = .settle ending) :
    (m.desk.box id).closed = true ∧ ∀ v, ending = .completed v → (m.desk.box id).mail.toList = [] := by
  have hends := h.ends
  generalize m.thread id .main = t at hends hsettle
  obtain ⟨control, stack⟩ := t
  obtain rfl : control = .settle ending := hsettle
  exact hends

/-- A run that has completed was closed with nothing in its box, and then its box stays as it is. -/
theorem Accounted.completed_acts (h : Accounted id m) (hm : Possible m) (hid : id < m.size) (hacts : Acts id side m n)
    (hclosed : (m.desk.box id).closed = true →
      (n.desk.box id).closed = true ∧ (n.desk.box id).mail.toList = (m.desk.box id).mail.toList) (v : Value)
    (hv : (n.run id).ending = some (.completed v)) :
    (n.desk.box id).closed = true ∧ (n.desk.box id).mail.toList = [] := by
  obtain ⟨hshut, hempty⟩ : (m.desk.box id).closed = true ∧ (m.desk.box id).mail.toList = [] := by
    rcases hacts.ending hm hid with hsame | ⟨rfl, ending, hsettle, hending⟩
    · exact h.completed v (hsame.symm.trans hv)
    · obtain ⟨hshut, hempty⟩ := h.settled hsettle
      exact ⟨hshut, hempty v (Option.some.inj (hending.symm.trans hv))⟩
  obtain ⟨hshut', hmail⟩ := hclosed hshut
  exact ⟨hshut', hmail.trans hempty⟩

/-- The main thread knows at its end what it has to know. -/
theorem Accounted.ends_main (h : Accounted id m) (hm : Possible m) (hid : id < m.size) (hacts : Acts id .main m n) :
    n.desk.Ends id (n.thread id .main) := by
  have hname := hm.attended.named hid
  have hnext := (hm.move hacts.move).sound.thread id .main
  obtain ⟨-, ready, -, hat | ⟨hside, -⟩⟩ := hacts.stride hm.sound
  · rw [hat.thread] at hnext ⊢
    rw [hat.desk]
    have hends : Desk.Ends { m.desk with ready } (m.run id).id (m.thread id .main) := by
      rw [hname]
      exact h.ends.keep (fun hzero => hzero) (fun hclosed => ⟨hclosed, rfl⟩)
        fun _ hjoins => ⟨hjoins.opened, hjoins.owner, hjoins.work, hjoins.waits, hjoins.woken, hjoins.done⟩
    have hstep := Run.step_ends hends ?_ ?_ (hm.sound.thread id .main) (hm.attended.sided hid .main) hnext
    · rwa [hname] at hstep
    · rw [hname]
      exact hm.orderly.desk.boxes ▸ hid
    · rw [hname]
      exact fun hzero => (h.of_zero hzero).2
  · cases hside

/-- An act of the run keeps what it can tell from its box, if the mail can still be read and is still counted, a worker
adds none where nothing is left to handle, and a closed box keeps its mail. -/
theorem Accounted.kept (h : Accounted id m) (hm : Possible m) (hid : id < m.size) (hacts : Acts id side m n)
    (hreadable : ∀ mail ∈ (n.desk.box id).mail.toList, mail.event.payload.Readable)
    (hbare : (n.thread id .worker).stack = [] → (n.desk.box id).unfinished = (n.desk.box id).mail.toList.length)
    (hbusy : (n.thread id .worker).stack ≠ [] → (n.desk.box id).unfinished = (n.desk.box id).mail.toList.length + 1)
    (hzero : side = .worker → (m.desk.box id).unfinished = 0 → (n.desk.box id).unfinished = 0)
    (hclosed : (m.desk.box id).closed = true →
      (n.desk.box id).closed = true ∧ (n.desk.box id).mail.toList = (m.desk.box id).mail.toList) : Accounted id n := by
  refine ⟨hreadable, hbare, hbusy, ?_, h.completed_acts hm hid hacts hclosed⟩
  cases side with
  | main => exact h.ends_main hm hid hacts
  | worker => exact h.ends_worker hm hid hacts (hzero rfl) hclosed

/-- Readable mail has arrived, if the box is open, and no handler has been started or has ended. -/
theorem Accounted.arrived (h : Accounted id m) (hm : Possible m) (hid : id < m.size) (hacts : Acts id side m n)
    (mails : List Mail) (hmail : (n.desk.box id).mail.toList = (m.desk.box id).mail.toList ++ (m.desk.box id).accepted mails)
    (hunfinished : (n.desk.box id).unfinished = (m.desk.box id).unfinished + ((m.desk.box id).accepted mails).length)
    (hshut : (m.desk.box id).closed = true → (n.desk.box id).closed = true)
    (hreadable : ∀ mail ∈ (m.desk.box id).accepted mails, mail.event.payload.Readable)
    (hworker : (n.thread id .worker).stack = [] ↔ (m.thread id .worker).stack = [])
    (hnone : side = .worker → (m.desk.box id).unfinished = 0 → mails = []) : Accounted id n := by
  refine h.kept hm hid hacts (fun mail hmem => ?_) (fun hbare => ?_) (fun hbusy => ?_) (fun hside hzero => ?_)
    fun hclosed => ⟨hshut hclosed, ?_⟩
  · rw [hmail] at hmem
    rcases List.mem_append.1 hmem with hold | hnew
    · exact h.readable mail hold
    · exact hreadable mail hnew
  · rw [hunfinished, hmail, List.length_append, h.bare (hworker.1 hbare)]
  · rw [hunfinished, hmail, List.length_append, h.busy fun hbare => hbusy (hworker.2 hbare)]
    exact Nat.add_right_comm _ _ _
  · rw [hunfinished, hzero, hnone hside hzero, Mailbox.accepted_nil]
    rfl
  · rw [hmail, Mailbox.accepted_of_closed hclosed, List.append_nil]

/-- What is published can be read, but for what a run says at its end, and then its box is closed. -/
theorem Accounted.readable_accepted (h : Accounted id m) {events : List Event}
    (hevents : ∀ event ∈ events, event.payload.Readable ∧ (m.thread id side).stack ≠ [] ∨
      side = .main ∧ ∃ ending, (m.thread id side).control = .settle ending) :
    ∀ mail ∈ (m.desk.box id).accepted (events.flatMap (m.desk.host.bus.mailFor id)), mail.event.payload.Readable := by
  intro mail hmem
  by_cases hshut : (m.desk.box id).closed = true
  · rw [Mailbox.accepted_of_closed hshut] at hmem
    cases hmem
  · rw [Mailbox.accepted, if_neg hshut] at hmem
    obtain ⟨event, hevent, hmail⟩ := List.mem_flatMap.1 hmem
    rw [Bus.event_of_mem_mailFor hmail]
    rcases hevents event hevent with ⟨hreadable, -⟩ | ⟨rfl, ending, hsettle⟩
    · exact hreadable
    · exact absurd (h.settled hsettle).1 hshut

/-- The worker has taken the first mail out of an open box and runs its handler. -/
theorem Accounted.begun (h : Accounted id m) (hm : Possible m) (hid : id < m.size) (hacts : Acts id .worker m n)
    {mail : Mail} {rest : Queue Mail} (hopen : (m.desk.box id).closed = false)
    (hpop : (m.desk.box id).mail.pop? = some (mail, rest)) (hbox : n.desk.box id = { m.desk.box id with mail := rest })
    (hbare : (m.thread id .worker).stack = []) (hbusy : (n.thread id .worker).stack ≠ []) : Accounted id n := by
  have hmail : (m.desk.box id).mail.toList = mail :: rest.toList := Queue.toList_of_pop? _ _ _ hpop
  have hrest : (n.desk.box id).mail.toList = rest.toList := congrArg (fun b => b.mail.toList) hbox
  have hunfinished : (n.desk.box id).unfinished = (m.desk.box id).unfinished := by rw [hbox]
  refine h.kept hm hid hacts (fun other hmem => ?_) (fun hnone => absurd hnone hbusy) (fun _ => ?_)
    (fun _ hzero => hunfinished.trans hzero) fun hshut => nomatch hopen.symm.trans hshut
  · rw [hrest] at hmem
    exact h.readable other (hmail ▸ List.mem_cons_of_mem mail hmem)
  · rw [hunfinished, h.bare hbare, hmail, hrest]
    rfl

/-- The handler of the worker has ended, and its event counts as handled. -/
theorem Accounted.finished (h : Accounted id m) (hm : Possible m) (hid : id < m.size) (hacts : Acts id .worker m n)
    (hmail : (n.desk.box id).mail = (m.desk.box id).mail) (hclosed : (n.desk.box id).closed = (m.desk.box id).closed)
    (hunfinished : (n.desk.box id).unfinished = (m.desk.box id).unfinished - 1)
    (hbusy : (m.thread id .worker).stack ≠ []) (hbare : (n.thread id .worker).stack = []) : Accounted id n := by
  refine h.kept hm hid hacts (fun mail hmem => h.readable mail (hmail ▸ hmem)) (fun _ => ?_)
    (fun hbody => absurd hbare hbody) (fun _ hzero => ?_) fun hshut => ⟨hclosed.trans hshut, congrArg Queue.toList hmail⟩
  · rw [hunfinished, hmail, h.busy hbusy]
    rfl
  · rw [hunfinished, hzero]

theorem Accounted.acts (h : Accounted id m) (hm : Possible m) (hid : id < m.size) (hacts : Acts id side m n) :
    Accounted id n := by
  have hname := hm.attended.named hid
  obtain ⟨ready, s, hat, hother, hmails⟩ := hacts.mails hm hid
  cases hmails with
  | posted events hpublished hgets hevents hbusy =>
    rw [hname] at hgets
    change (m.desk.box id).Gets (events.flatMap (m.desk.host.bus.mailFor id)) _ at hgets
    rw [← hat.desk] at hgets
    have hworker : (n.thread id .worker).stack = [] ↔ (m.thread id .worker).stack = [] := by
      cases side with
      | main => rw [show n.thread id .worker = m.thread id .worker from hother]
      | worker =>
        rw [hat.thread]
        exact hbusy rfl
    refine h.arrived hm hid hacts _ hgets.mail hgets.unfinished hgets.closed.trans (h.readable_accepted hevents) hworker
      fun hside hzero => ?_
    -- A worker that publishes has a body, and then not everything has been handled.
    subst hside
    obtain rfl : events = [] := by
      refine List.eq_nil_iff_forall_not_mem.2 fun event hevent => ?_
      rcases hevents event hevent with ⟨-, hbody⟩ | ⟨hside, -⟩
      · exact hbody (h.of_zero hzero).1
      · cases hside
    rfl
  | began mail rest hside hbare hopen hpop hpublished hbox hbusy hbegins =>
    subst hside
    rw [hname] at hbox hpop hopen
    rw [← hat.desk] at hbox
    rw [← hat.thread] at hbusy
    exact h.begun hm hid hacts hopen hpop hbox hbare hbusy
  | handled hside hbusy hbare hpublished hmail hclosed hunfinished =>
    subst hside
    rw [hname] at hmail hclosed hunfinished
    rw [← hat.desk] at hmail hclosed hunfinished
    rw [← hat.thread] at hbare
    exact h.finished hm hid hacts hmail hclosed hunfinished hbusy hbare
  | closed hside hpublished hgets =>
    subst hside
    rw [hname] at hgets
    rw [← hat.desk] at hgets
    have hnone : (m.desk.box id).accepted [] = [] := Mailbox.accepted_nil _
    refine h.arrived hm hid hacts [] ?_ ?_ (fun _ => hgets.closed) (fun mail hmem => ?_) ?_ nofun
    · rw [hnone, hgets.mail, Mailbox.accepted_nil]
      rfl
    · rw [hnone, hgets.unfinished, Mailbox.accepted_nil]
      rfl
    · rw [hnone] at hmem
      cases hmem
    · rw [show n.thread id .worker = m.thread id .worker from hother]

theorem Acts.begins (hacts : Acts id side m n) (h : Accounted id m) (hm : Possible m) (hid : id < m.size) {mail : Mail}
    (hmail : mail ∈ started id m n) : side = .worker ∧ ∃ s, n.At id .worker s ∧ s.Begins (m.run id) mail := by
  have hname := hm.attended.named hid
  obtain ⟨ready, s, hat, hother, hmails⟩ := hacts.mails hm hid
  have hnone (hsame : (n.thread id .worker).stack = [] ↔ (m.thread id .worker).stack = []) : False := by
    rw [started_of_iff hsame] at hmail
    cases hmail
  have hstill (hside : side = .main) : n.thread id .worker = m.thread id .worker := by
    subst hside
    exact hother
  cases hmails with
  | posted events hpublished hgets hevents hbusy =>
    refine (hnone ?_).elim
    cases side with
    | main => rw [hstill rfl]
    | worker =>
      rw [hat.thread]
      exact hbusy rfl
  | began oldest rest hside hbare hopen hpop hpublished hbox hbusy hbegins =>
    subst hside
    rw [hname] at hpop
    have hbox : (m.desk.box id).mail.toList = oldest :: rest.toList := Queue.toList_of_pop? _ _ _ hpop
    obtain rfl : mail = oldest := by
      rw [started, hat.thread, hbare, List.isEmpty_nil, List.isEmpty_eq_false_iff.2 hbusy, hbox] at hmail
      exact List.mem_singleton.1 hmail
    refine ⟨rfl, s, hat, hbegins (h.readable mail ?_)⟩
    rw [hbox]
    exact List.mem_cons_self
  | handled hside hbusy hbare hpublished hmail' hclosed hunfinished =>
    subst hside
    rw [started_of_busy hbusy] at hmail
    cases hmail
  | closed hside hpublished hgets =>
    exact (hnone (by rw [hstill hside])).elim

end Moment

def Run.emitted? (r : Run) : Thread → Option Event
  | ⟨.value v, .emitName none _ :: _⟩ => some ⟨r.heap.display v, .null⟩
  | ⟨.value v, .emitPayload name :: _⟩ => some ⟨name, r.heap.plain v⟩
  | _ => none

theorem Run.step_emits {side : Side} {r : Run} {t : Thread} {event : Event} (h : r.emitted? t = some event) (d : Desk) :
    (step side r d t).desk = d.publish event := by
  unfold emitted? at h
  split at h
  · cases h
    rfl
  · cases h
    rfl
  · cases h

namespace Moment

variable {m n : Moment} {id : RunId} {side : Side}

theorem Acts.emits (hacts : Acts id side m n) (hm : Possible m) {event : Event}
    (h : (m.run id).emitted? (m.thread id side) = some event) : published m n = [event] := by
  obtain ⟨-, ready, -, hat | ⟨-, hrest, -⟩⟩ := hacts.stride hm.sound
  · refine published_of_append ?_
    rw [hat.desk, Run.step_emits h, Desk.publish_published, Array.toList_push]
  · -- a thread at rest has no value at hand
    unfold Run.emitted? at h
    split at h
    · rename_i heq
      rw [heq] at hrest
      cases hrest
    · rename_i heq
      rw [heq] at hrest
      cases hrest
    · cases h

theorem box_absent {runs : Nat} {d : Desk} (hd : d.Orderly runs) (hid : runs ≤ id) : d.box id = {} := by
  simp [Desk.box, Array.getD_eq_getD_getElem?, hd.boxes ▸ hid]

/-- Nothing is in the box of a run when it is launched. -/
theorem Move.box_launched (hn : Move m n) (hm : Possible m) (hold : m.size ≤ id) (hnew : id < n.size) : n.desk.box id = {} := by
  have hsame (h : n.size = m.size) : n.desk.box id = {} :=
    absurd hnew (Nat.not_lt.2 (h ▸ hold))
  cases hn with
  | reorder _ => exact hsame rfl
  | next hn =>
    cases hn with
    | waited _ _ => exact hsame rfl
    | @entry w entry ready _ hentry => exact hsame (World.size_advance (w.dequeued ready) hentry)
    | thread _ => exact hsame (World.size_setRun _ _ _)
    | step _ => exact hsame rfl
    | rest _ => exact hsame ((congrArg Array.size (World.runs_rest _ _ _ _)).trans (World.size_setRun _ _ _))
    | @driven w w' hdriven =>
      have hw : w.Orderly := ⟨hm.orderly.desk, hm.orderly.idlers⟩
      have habsent {v : World} (hv : v.Orderly) (hsize : v.runs = w.runs) : v.desk.box id = {} :=
        box_absent hv.desk (hsize ▸ hold)
      cases hdriven with
      | @launch name tokens source program hparse limits startedAt heap scopes =>
        exact (w.box_launch name program limits startedAt heap scopes id).trans (habsent hw rfl)
      | cancel other => exact hsame (w.size_cancel other)
      | publish | answer | wait | turn | configure | listen | unlisten | host => exact hsame rfl
      | start l =>
        obtain ⟨hruns, hdesk⟩ := w.nameFor_same l.name
        have hnamed : (w.nameFor l.name).2.Orderly := hw.withDesk hruns (hdesk ▸ hw.desk) (hdesk ▸ .refl _)
        change (w.start l).2.desk.box id = {}
        simp only [World.start]
        generalize w.nameFor l.name = named at hruns hnamed ⊢
        split
        · split
          · exact (World.box_addRun _ _ id).trans (habsent ((hnamed.publish _).publish _) hruns)
          · exact (World.box_addRun _ _ id).trans (habsent (hnamed.publish _) hruns)
        · split
          · exact habsent (hnamed.publish _) hruns
          · rename_i r _
            exact (World.box_addRun _ r id).trans (habsent (hnamed.publish _) hruns)

/-- Moves from a moment on by which nobody but the run publishes, what they deliver to the run, and for what they start its
handlers. -/
inductive Alone (id : RunId) (m : Moment) : List Mail → List Mail → Moment → Prop
  | refl : Alone id m [] [] m
  | move {n o : Moment} {deliveries starts : List Mail} (h : Alone id m deliveries starts n) (hn : Move n o)
      (hquiet : (∀ side, ¬Acts id side n o) → published n o = []) :
      Alone id m (deliveries ++ delivered id n o) (starts ++ started id n o) o

variable {deliveries starts : List Mail}

theorem Alone.moves (h : Alone id m deliveries starts n) : Moves m n := by
  induction h with
  | refl => exact .refl m
  | move _ hn _ ih => exact ih.move hn

/-- What was delivered has been started, or is in the box. -/
theorem Alone.accounted (h : Alone id m deliveries starts n) (hm : Possible m) (hid : id < m.size) (hstart : Accounted id m)
    (hbox : m.desk.box id = {}) : Accounted id n ∧ deliveries = starts ++ (n.desk.box id).mail.toList := by
  induction h with
  | refl =>
    rw [hbox]
    exact ⟨hstart, rfl⟩
  | @move n o deliveries starts h hn hquiet ih =>
    obtain ⟨haccounted, hdeliveries⟩ := ih
    have hpossible := hm.moves h.moves
    have hsize : id < n.size := Nat.lt_of_lt_of_le hid h.moves.size
    by_cases hacts : ∃ side, Acts id side n o
    · obtain ⟨side, hacts⟩ := hacts
      refine ⟨haccounted.acts hpossible hsize hacts, ?_⟩
      rw [hdeliveries, List.append_assoc, hacts.conserves hpossible hsize, List.append_assoc]
    · have hnot (side : Side) : ¬Acts id side n o := fun hact => hacts ⟨side, hact⟩
      obtain ⟨haccounted', hgets⟩ := haccounted.aside hpossible hsize hn hnot (hquiet hnot)
      have hmail : (o.desk.box id).mail.toList = (n.desk.box id).mail.toList := by
        rw [hgets.mail, Mailbox.accepted_nil, List.append_nil]
      have hworker := (hn.stands hpossible.sound hsize hnot).1 .worker
      refine ⟨haccounted', ?_⟩
      rw [hdeliveries, delivered_of_nil (hquiet hnot), started_of_iff (by rw [hworker]), hmail, List.append_nil,
        List.append_nil]

end Moment

def Frame.isHandler : Frame → Bool
  | .handler => true
  | _ => false

def Moment.active (id : RunId) (m : Moment) : Nat :=
  ((m.thread id .main).stack ++ (m.thread id .worker).stack).countP Frame.isHandler

/-- The body of a handler lies at the ground of a stack. -/
theorem Stacked.countP_handler_le {need : Need} {stack : List Frame} (h : Stacked need stack) :
    stack.countP Frame.isHandler ≤ 1 := by
  induction stack generalizing need with
  | nil => exact h.elim
  | cons frame rest ih =>
    obtain ⟨-, -, hbelow⟩ := h
    cases hgives : frame.gives with
    | none =>
      rw [hgives] at hbelow
      obtain rfl : rest = [] := hbelow
      exact List.countP_le_length
    | some given =>
      rw [hgives] at hbelow
      have hnot : ¬frame.isHandler = true := by
        cases frame with
        | handler => cases hgives
        | _ => nofun
      rw [List.countP_cons_of_neg hnot]
      exact ih hbelow

theorem Moment.Possible.active_le {m : Moment} (hm : m.Possible) {id : RunId} (hid : id < m.size) : m.active id ≤ 1 := by
  have hmain : (m.thread id .main).stack.countP Frame.isHandler = 0 := by
    refine List.countP_eq_zero.2 fun frame hmem hhandler => hm.no_handler_on_main hid ?_
    cases frame with
    | handler => exact hmem
    | _ => cases hhandler
  rw [Moment.active, List.countP_append, hmain, Nat.zero_add]
  by_cases hbare : (m.thread id .worker).stack = []
  · rw [hbare]
    exact Nat.zero_le 1
  · obtain ⟨need, hstacked⟩ := (hm.sound.thread id .worker).stacked hbare
    exact hstacked.countP_handler_le

/-- In every interleaving from the launch of a run on, in which nobody else publishes: the handlers started are a prefix of
the deliveries, in order and each once; no two are active at once; an `emit` publishes its payload as plain data, and a
handler that is started sees the name of the event and a value made of that; and if the run has completed, a handler was
started for every delivery. -/
theorem handlers_run_in_order {l m n : Moment} (hl : l.Possible) (hlaunch : Moment.Move l m) {id : RunId} (hnew : l.size ≤ id)
    (hid : id < m.size) {deliveries starts : List Mail} (h : Moment.Alone id m deliveries starts n) :
    starts <+: deliveries ∧ n.active id ≤ 1 ∧
    (∀ side o event, Moment.Acts id side n o → (n.run id).emitted? (n.thread id side) = some event →
      Moment.published n o = [event]) ∧
    (∀ side o mail, Moment.Acts id side n o → mail ∈ Moment.started id n o →
      ∃ scope v, o.thread id .worker = ⟨.statements mail.body.statements scope, [.handler]⟩ ∧
        (n.run id).heap.ofPlain mail.event.payload = .ok (v, (o.run id).heap) ∧
        (o.run id).scopes.lookup? scope "event" = some v ∧
        (o.run id).scopes.lookup? scope "eventName" = some (.str mail.event.name)) ∧
    (∀ v, (n.run id).ending = some (.completed v) → starts = deliveries) := by
  have hm : m.Possible := hl.move hlaunch
  have hbox := hlaunch.box_launched hl hnew hid
  obtain ⟨hunbegun, hthreads⟩ := hlaunch.unbegun hnew hid
  obtain ⟨haccounted, rfl⟩ := h.accounted hm hid (.launched hbox hunbegun hthreads) hbox
  have hn : n.Possible := hm.moves h.moves
  have hsize : id < n.size := Nat.lt_of_lt_of_le hid h.moves.size
  refine ⟨List.prefix_append _ _, hn.active_le hsize, fun side o event hacts => hacts.emits hn,
    fun side o mail hacts hmail => ?_, fun v hv => ?_⟩
  · obtain ⟨-, s, hat, scope, v, hbody, hvalue, hevent, hname⟩ := hacts.begins haccounted hn hsize hmail
    rw [hat.thread, hat.run]
    exact ⟨scope, v, hbody, hvalue, hevent, hname⟩
  · rw [(haccounted.completed v hv).2, List.append_nil]

namespace Moment

/-- A world left to itself, in which one run has the next move or nothing is published. -/
theorem alone_after (m : Moment) (id : RunId) {k : Nat} (h : ∀ j < k, (m.after j).isNext id .main = true ∨
    (m.after j).isNext id .worker = true ∨ (published (m.after j) (m.after (j + 1))).isEmpty = true) :
    Alone id m ((List.range k).flatMap fun j => delivered id (m.after j) (m.after (j + 1)))
      ((List.range k).flatMap fun j => started id (m.after j) (m.after (j + 1))) (m.after k) := by
  induction k with
  | zero => exact .refl
  | succ k ih =>
    have hbefore := ih fun j hj => h j (Nat.lt_succ_of_lt hj)
    rw [List.range_succ, List.flatMap_append, List.flatMap_append, List.flatMap_singleton, List.flatMap_singleton]
    refine hbefore.move (.next (follow_next _)) fun hnot => ?_
    rcases h k (Nat.lt_succ_self k) with hmain | hworker | hempty
    · exact absurd (follow_acts hmain) (hnot .main)
    · exact absurd (follow_acts hworker) (hnot .worker)
    · exact List.isEmpty_iff.1 hempty

end Moment

def Ending.isCompleted : Option Ending → Bool
  | some (.completed _) => true
  | _ => false

theorem Ending.completed_of_isCompleted {ending : Option Ending} (h : Ending.isCompleted ending = true) :
    ∃ v, ending = some (.completed v) := by
  unfold isCompleted at h
  split at h
  · exact ⟨_, rfl⟩
  · cases h

namespace Hearing

/-- The tokens of `on "t" {print "a"}` and `emit "t"`, twice, without places. -/
def tokens : List Token :=
  [.keyword .on, .text "t", .symbol .leftBrace, .keyword .print, .text "a", .symbol .rightBrace, .newline, .keyword .emit,
    .text "t", .newline, .keyword .emit, .text "t", .finish].map fun content => ⟨content, "", default⟩

def program : Program := ⟨default, [.on default Again.event ⟨default, [Again.print]⟩, Again.emit, Again.emit], #[]⟩

def launched : Moment := .resting (({} : World).launch "script" program {} 0 {} .root)

theorem launched_move : Moment.Move (.resting {}) launched :=
  .next (.driven (@World.Driven.launch _ "script" tokens none program rfl _ 0 {} .root))

def completed : Moment := launched.after 67

def deliveries : List Mail :=
  (List.range 67).flatMap fun j => Moment.delivered 0 (launched.after j) (launched.after (j + 1))

def starts : List Mail := (List.range 67).flatMap fun j => Moment.started 0 (launched.after j) (launched.after (j + 1))

theorem completed_alone : Moment.Alone 0 launched deliveries starts completed :=
  Moment.alone_after launched 0 (by decide +kernel)

theorem completed_ending : ∃ v, (completed.run 0).ending = some (.completed v) :=
  Ending.completed_of_isCompleted (by decide +kernel)

end Hearing

/-- Both handlers of this run have been started when it has completed. -/
theorem handlers_run_in_order_hearing : (Moment.resting {}).Possible ∧ Moment.Move (.resting {}) Hearing.launched ∧
    (Moment.resting {}).size ≤ 0 ∧ 0 < Hearing.launched.size ∧
    Moment.Alone 0 Hearing.launched Hearing.deliveries Hearing.starts Hearing.completed ∧
    Hearing.starts = Hearing.deliveries ∧ Hearing.starts.length = 2 := by
  have hfresh : (Moment.resting {}).Possible := .fresh {} {} (fun _ => true) nofun
  have hsize : 0 < Hearing.launched.size := by decide +kernel
  obtain ⟨v, hv⟩ := Hearing.completed_ending
  obtain ⟨-, -, -, -, hall⟩ :=
    handlers_run_in_order hfresh Hearing.launched_move (Nat.le_refl 0) hsize Hearing.completed_alone
  exact ⟨hfresh, Hearing.launched_move, Nat.le_refl 0, hsize, Hearing.completed_alone, hall v hv, by decide +kernel⟩

end DeskScript
