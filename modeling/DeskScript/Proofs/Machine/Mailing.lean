import DeskScript.Proofs.Machine.Orderly

set_option autoImplicit false

/-!
# The mail of a run

An event puts one mail into the box of a run for each handler of the run that it matches, in order of registration.
`Run.step_mails` says once for all steps what becomes of the box of the run that makes the step: it gets what was published,
it loses the mail whose handler begins, a handler of it has ended, or it is closed.
-/

namespace DeskScript

def Listener.mail? (run : RunId) (event : Event) : Listener → Option Mail
  | handler owner body scope => if owner = run then some { body, scope, event } else none
  | recorder | printer _ => none

def Bus.mailFor (bus : Bus Listener) (run : RunId) (event : Event) : List Mail :=
  (bus.audience event.name).filterMap (Listener.mail? run event)

theorem Bus.event_of_mem_mailFor {bus : Bus Listener} {run : RunId} {event : Event} {mail : Mail}
    (h : mail ∈ bus.mailFor run event) : mail.event = event := by
  obtain ⟨listener, -, hlistener⟩ := List.mem_filterMap.1 h
  cases listener with
  | handler owner body scope =>
    simp only [Listener.mail?] at hlistener
    split at hlistener
    · cases hlistener
      rfl
    · cases hlistener
  | recorder | printer => cases hlistener

namespace Mailbox

/-- What a box takes of the mail that arrives: all of it while it is open. -/
def accepted (b : Mailbox) (mails : List Mail) : List Mail := if b.closed then [] else mails

structure Gets (mails : List Mail) (b b' : Mailbox) : Prop where
  mail : b'.mail.toList = b.mail.toList ++ b.accepted mails
  unfinished : b'.unfinished = b.unfinished + (b.accepted mails).length
  closed : b'.closed = b.closed

variable {b b' b'' : Mailbox} {mails : List Mail}

theorem accepted_nil (b : Mailbox) : b.accepted [] = [] := by
  unfold accepted
  split <;> rfl

theorem accepted_of_closed (h : b.closed = true) (mails : List Mail) : b.accepted mails = [] := if_pos h

theorem Gets.none (hmail : b'.mail = b.mail) (hunfinished : b'.unfinished = b.unfinished) (hclosed : b'.closed = b.closed) :
    Gets [] b b' := by
  refine ⟨?_, ?_, hclosed⟩
  · rw [hmail, accepted_nil, List.append_nil]
  · rw [hunfinished, accepted_nil, List.length_nil, Nat.add_zero]

theorem Gets.refl (b : Mailbox) : Gets [] b b := .none rfl rfl rfl

theorem Gets.cons {mail : Mail} (h : Gets [mail] b b') (h' : Gets mails b' b'') : Gets (mail :: mails) b b'' := by
  have haccepted : b.accepted (mail :: mails) = b.accepted [mail] ++ b'.accepted mails := by
    unfold accepted
    rw [h.closed]
    split <;> rfl
  refine ⟨?_, ?_, h'.closed.trans h.closed⟩
  · rw [h'.mail, h.mail, haccepted, List.append_assoc]
  · rw [h'.unfinished, h.unfinished, haccepted, List.length_append, Nat.add_assoc]

end Mailbox

namespace Desk

variable {d d' : Desk} {run : RunId}

structure Silent (d d' : Desk) : Prop where
  host : d'.host = d.host
  boxes : d'.boxes = d.boxes

theorem Silent.refl (d : Desk) : d.Silent d := ⟨rfl, rfl⟩

theorem Silent.trans {d'' : Desk} (h : d.Silent d') (h' : d'.Silent d'') : d.Silent d'' :=
  ⟨h'.host.trans h.host, h'.boxes.trans h.boxes⟩

theorem Silent.box (h : d.Silent d') (run : RunId) : d'.box run = d.box run := by rw [Desk.box, Desk.box, h.boxes]

theorem wake_silent (d : Desk) (id : ServiceId) (r : Except Fault Plain) : d.Silent (d.wake id r) := by
  unfold wake
  split
  · exact ⟨rfl, rfl⟩
  · exact .refl d

theorem interrupt_silent (d : Desk) (id : ServiceId) : d.Silent (d.interrupt id) := by
  unfold interrupt
  split
  · exact .refl d
  · exact ⟨rfl, rfl⟩
  · exact ⟨rfl, rfl⟩

theorem foldl_silent {α : Type} {f : Desk → α → Desk} (hf : ∀ (d : Desk) (a : α), d.Silent (f d a)) (as : List α)
    (d : Desk) : d.Silent (as.foldl f d) := by
  induction as generalizing d with
  | nil => exact .refl d
  | cons a as ih => exact (hf d a).trans (ih (f d a))

theorem wakeAll_silent (d : Desk) (ids : List ServiceId) : d.Silent (d.wakeAll ids) :=
  foldl_silent (fun d id => wake_silent d id _) ids d

theorem interruptAll_silent (d : Desk) (ids : List ServiceId) : d.Silent (d.interruptAll ids) :=
  foldl_silent interrupt_silent ids d

theorem box_of_still (h : d.Still d') (run : RunId) : d'.box run = d.box run := by rw [box, box, h.boxes]

theorem post_gets (d : Desk) (hrun : run < d.boxes.size) (mail : Mail) :
    (d.box run).Gets [mail] ((d.post run mail).box run) := by
  have hpushed := box_modifyBox_self d hrun
    fun b => { b with mail := b.mail.push mail, unfinished := b.unfinished + 1, waiting := false }
  simp only [post]
  split
  · rename_i hclosed
    have hnone := Mailbox.accepted_of_closed hclosed [mail]
    exact ⟨by rw [hnone, List.append_nil], by rw [hnone]; rfl, rfl⟩
  · rename_i hopen
    have hone : (d.box run).accepted [mail] = [mail] := if_neg hopen
    have hgets : (d.box run).Gets [mail] ((d.modifyBox run fun b =>
        { b with mail := b.mail.push mail, unfinished := b.unfinished + 1, waiting := false }).box run) := by
      rw [hpushed]
      exact ⟨by rw [hone, Queue.toList_push], by rw [hone]; rfl, rfl⟩
    split
    · exact hgets
    · exact hgets

theorem post_ne (d : Desk) {other : RunId} (hother : other ≠ run) (mail : Mail) : (d.post run mail).box other = d.box other := by
  simp only [post]
  split
  · rfl
  · split
    · exact box_modifyBox_ne d hother _
    · exact box_modifyBox_ne d hother _

theorem post_size (d : Desk) (run : RunId) (mail : Mail) : (d.post run mail).boxes.size = d.boxes.size := by
  simp only [post]
  split
  · rfl
  · split
    · exact Array.size_modify
    · exact Array.size_modify

theorem post_host (d : Desk) (run : RunId) (mail : Mail) : (d.post run mail).host = d.host := by
  simp only [post]
  split
  · rfl
  · split <;> rfl

theorem deliver_published (event : Event) (d : Desk) (listener : Listener) :
    (deliver event d listener).host.published = d.host.published := by
  cases listener with
  | handler run body scope => rw [deliver, post_host]
  | recorder => rfl
  | printer lead =>
    simp only [deliver]
    split <;> rfl

theorem publish_published (d : Desk) (event : Event) :
    (d.publish event).host.published = d.host.published.push event := by
  have hfold (listeners : List Listener) (d : Desk) :
      (listeners.foldl (deliver event) d).host.published = d.host.published := by
    induction listeners generalizing d with
    | nil => rfl
    | cons listener listeners ih =>
      rw [List.foldl_cons, ih]
      exact deliver_published event d listener
  exact hfold _ _

theorem publish_gets (d : Desk) (hrun : run < d.boxes.size) (event : Event) :
    (d.box run).Gets (d.host.bus.mailFor run event) ((d.publish event).box run) := by
  -- the listeners are served one after the other, and each puts at most one mail into the box
  have hfold (listeners : List Listener) (d : Desk) (hrun : run < d.boxes.size) :
      (d.box run).Gets (listeners.filterMap (Listener.mail? run event)) ((listeners.foldl (deliver event) d).box run) := by
    induction listeners generalizing d with
    | nil => exact .refl _
    | cons listener listeners ih =>
      rw [List.foldl_cons]
      cases listener with
      | handler owner body scope =>
        have hsize : (deliver event d (.handler owner body scope)).boxes.size = d.boxes.size := d.post_size owner _
        have hrest := ih (deliver event d (.handler owner body scope)) (hsize ▸ hrun)
        by_cases howner : owner = run
        · subst howner
          have hmail : Listener.mail? owner event (.handler owner body scope) = some ⟨body, scope, event⟩ := if_pos rfl
          rw [List.filterMap_cons_some hmail]
          exact (d.post_gets hrun _).cons hrest
        · have hnone : Listener.mail? run event (.handler owner body scope) = none := if_neg howner
          rw [List.filterMap_cons_none hnone]
          rwa [show (deliver event d (.handler owner body scope)).box run = d.box run from
            d.post_ne (Ne.symm howner) _] at hrest
      | recorder =>
        rw [List.filterMap_cons_none rfl]
        exact ih (deliver event d .recorder) hrun
      | printer lead =>
        have hstill : d.Still (deliver event d (.printer lead)) := by
          simp only [deliver]
          split
          · exact ⟨rfl, rfl⟩
          · exact .refl d
        rw [List.filterMap_cons_none rfl, ← box_of_still hstill run]
        exact ih _ (hstill.boxes ▸ hrun)
  exact hfold (d.host.bus.audience event.name) { d with host := { d.host with
    bus := (d.host.bus.publish event).2, published := d.host.published.push event } } hrun

/-- When an event has been handled, all are, or nobody is told. -/
theorem handled_box (d : Desk) (hrun : run < d.boxes.size) :
    ((d.handled run).box run).mail = (d.box run).mail ∧ ((d.handled run).box run).closed = (d.box run).closed ∧
      ((d.handled run).box run).unfinished = (d.box run).unfinished - 1 := by
  simp only [handled]
  split
  · rename_i hleft
    rw [box_of_still (wakeAll_still _ _), box_modifyBox_self d hrun]
    exact ⟨rfl, rfl, hleft.symm⟩
  · rw [box_modifyBox_self d hrun]
    exact ⟨rfl, rfl, rfl⟩

theorem handled_box_ne (d : Desk) {other : RunId} (hother : other ≠ run) : (d.handled run).box other = d.box other := by
  simp only [handled]
  split
  · rw [(wakeAll_silent _ _).box, box_modifyBox_ne d hother]
  · exact box_modifyBox_ne d hother _

theorem handled_host (d : Desk) (run : RunId) : (d.handled run).host = d.host := by
  simp only [handled]
  split
  · exact (wakeAll_silent _ _).host
  · rfl

end Desk

/-- The step begins the body of a handler for the mail: in a scope of its own it sees the event as a value made of the
payload, and the name of the event. -/
structure Step.Begins (r : Run) (mail : Mail) (s : Step) : Prop where
  body : ∃ scope v, s.thread = ⟨.statements mail.body.statements scope, [.handler]⟩ ∧
    r.heap.ofPlain mail.event.payload = .ok (v, s.run.heap) ∧
    s.run.scopes.lookup? scope "event" = some v ∧
    s.run.scopes.lookup? scope "eventName" = some (.str mail.event.name)

inductive Step.Mails (side : Side) (r : Run) (d : Desk) (t : Thread) (s : Step) : Prop
  | posted (events : List Event) (hpublished : s.desk.host.published.toList = d.host.published.toList ++ events)
      (hbox : (d.box r.id).Gets (events.flatMap (d.host.bus.mailFor r.id)) (s.desk.box r.id))
      (hevents : ∀ event ∈ events,
        event.payload.Readable ∧ t.stack ≠ [] ∨ side = .main ∧ ∃ ending, t.control = .settle ending)
      (hbusy : side = .worker → (s.thread.stack = [] ↔ t.stack = []))
  | began (mail : Mail) (rest : Queue Mail) (hside : side = .worker) (hbare : t.stack = [])
      (hopen : (d.box r.id).closed = false) (hpop : (d.box r.id).mail.pop? = some (mail, rest))
      (hpublished : s.desk.host.published = d.host.published) (hbox : s.desk.box r.id = { d.box r.id with mail := rest })
      (hbusy : s.thread.stack ≠ []) (hbegins : mail.event.payload.Readable → s.Begins r mail)
  | handled (hside : side = .worker) (hbusy : t.stack ≠ []) (hbare : s.thread.stack = [])
      (hpublished : s.desk.host.published = d.host.published) (hmail : (s.desk.box r.id).mail = (d.box r.id).mail)
      (hclosed : (s.desk.box r.id).closed = (d.box r.id).closed)
      (hunfinished : (s.desk.box r.id).unfinished = (d.box r.id).unfinished - 1)
  | closed (hside : side = .main) (hpublished : s.desk.host.published = d.host.published)
      (hbox : Mailbox.Gets [] { d.box r.id with closed := true } (s.desk.box r.id))

namespace Run

variable {side : Side} {r : Run} {d : Desk} {t : Thread} {stack : List Frame}

theorem mails_none {s : Step} (hpublished : s.desk.host.published = d.host.published)
    (hbox : (d.box r.id).Gets [] (s.desk.box r.id)) (hbusy : side = .worker → (s.thread.stack = [] ↔ t.stack = [])) :
    s.Mails side r d t :=
  .posted [] (by rw [hpublished, List.append_nil]) hbox nofun hbusy

theorem lookup_extend (scopes : Scopes) (parent : ScopeId) (label : String) (boundary : Bool) {bindings : Dict Value}
    {name : String} {v : Value} (h : bindings.get? name = some v) (hcontains : bindings.contains name = true) :
    (scopes.extend parent label boundary bindings).2.lookup? (scopes.extend parent label boundary bindings).1 name =
      some v := by
  have hget : (scopes.extend parent label boundary bindings).2.get (scopes.extend parent label boundary bindings).1 =
      { label, parent := some parent, boundary, bindings } := by
    simp [Scopes.extend, Scopes.get]
  have hdeclaring : (scopes.extend parent label boundary bindings).2.declaring?
      (scopes.extend parent label boundary bindings).1 name = some (scopes.extend parent label boundary bindings).1 := by
    unfold Scopes.declaring?
    rw [Scopes.nearest]
    simp only [hget, hcontains, if_true]
  simp only [Scopes.lookup?, hdeclaring, Option.bind_some, hget, h]

theorem deed_mails {s : Step} (hrun : r.id < d.boxes.size) (hdeed : d.Deed r.id s.desk) (hne : t.stack ≠ [])
    (hbusy : side = .worker → (s.thread.stack = [] ↔ t.stack = [])) : s.Mails side r d t := by
  generalize hdesk : s.desk = d' at hdeed
  cases hdeed with
  | host host hbus hpublished => exact mails_none (by rw [hdesk]; exact hpublished) (by rw [hdesk]; exact .refl _) hbusy
  | subscribe pattern body scope => exact mails_none (by rw [hdesk]) (by rw [hdesk]; exact .refl _) hbusy
  | publish event hreadable =>
    refine .posted [event] ?_ ?_ (fun other hother => ?_) hbusy
    · rw [hdesk, d.publish_published, Array.toList_push]
    · rw [hdesk, List.flatMap_singleton]
      exact d.publish_gets hrun event
    · rw [List.mem_singleton.1 hother]
      exact .inl ⟨hreadable, hne⟩

theorem mails_silent {s : Step} (hdesk : d.Silent s.desk) (hbusy : side = .worker → (s.thread.stack = [] ↔ t.stack = [])) :
    s.Mails side r d t := by
  refine mails_none (congrArg Host.published hdesk.host) ?_ hbusy
  rw [hdesk.box]
  exact .refl _

theorem becomeIdle_silent (r : Run) (d : Desk) : d.Silent (r.becomeIdle d).2 := by
  unfold becomeIdle
  split
  · exact .refl d
  · exact d.wakeAll_silent _

theorem retire_silent (r : Run) (d : Desk) : d.Silent (r.retire d).desk := by
  unfold retire
  dsimp only
  split
  · exact ⟨rfl, rfl⟩
  · exact .refl d

theorem checkpoint_mails : (r.checkpoint d stack).Mails side r d ⟨.checkpoint, stack⟩ := by
  unfold checkpoint
  split
  · exact mails_silent (.refl d) fun _ => .rfl
  · dsimp only
    split <;> exact mails_silent (.refl d) fun _ => .rfl

theorem request_mails (work : Work) : (r.request d side work stack).Mails side r d ⟨.request work, stack⟩ := by
  unfold request
  split
  · exact mails_silent (.refl d) fun _ => .rfl
  · have hopened : d.Silent (d.open_ r.id side work).2 := ⟨rfl, rfl⟩
    cases side with
    | main => exact mails_silent hopened fun _ => .rfl
    | worker => exact mails_silent (hopened.trans (becomeIdle_silent _ _)) fun _ => .rfl

theorem resume_mails (service : ServiceId) (releases : Bool) :
    (r.resume d service releases false stack).Mails side r d ⟨.resume service releases, stack⟩ := by
  simp only [resume, Bool.false_eq_true, if_false]
  split <;> exact mails_silent (.refl d) fun _ => .rfl

theorem leaveHandler_mails (hrun : r.id < d.boxes.size) (result : Except Raised Unit) (hne : t.stack ≠ []) :
    (r.leaveHandler d result).Mails .worker r d t := by
  obtain ⟨r', d', hjudged, hstep⟩ := r.leaveHandler_judged d result
  obtain ⟨hid, hdesk⟩ : r'.id = r.id ∧ d.Silent d' := by
    cases hjudged with
    | well => exact ⟨rfl, .refl d⟩
    | aborted e => exact ⟨rfl, d.interruptAll_silent _⟩
  -- the flag of the governor comes before the count of the box
  have hidle : d.Silent (Run.becomeIdle { r' with governor := { r'.governor with handling := false } } d').2 :=
    hdesk.trans (becomeIdle_silent _ _)
  have hid' : (r'.handlerFinished d').1.id = r.id := (r'.handlerFinished_quiet d').id.trans hid
  have hfinished : (r'.handlerFinished d').2 =
      (Run.becomeIdle { r' with governor := { r'.governor with handling := false } } d').2.handled r.id :=
    congrArg (Desk.handled _) hid'
  have hsize : r.id < (Run.becomeIdle { r' with governor := { r'.governor with handling := false } } d').2.boxes.size :=
    hidle.boxes ▸ hrun
  have hbox := Desk.handled_box _ hsize
  rw [← hfinished, hidle.box] at hbox
  have hpublished : (r'.handlerFinished d').2.host.published = d.host.published := by
    rw [hfinished, Desk.handled_host, hidle.host]
  have hmails {s : Step} (hsilent : (r'.handlerFinished d').2.Silent s.desk) (hbare : s.thread.stack = []) :
      s.Mails .worker r d t := by
    refine .handled rfl hne hbare ?_ ?_ ?_ ?_
    · rw [hsilent.host, hpublished]
    · rw [hsilent.box, hbox.1]
    · rw [hsilent.box, hbox.2.1]
    · rw [hsilent.box, hbox.2.2]
  rcases hstep with hstep | hstep
  · rw [hstep]
    exact hmails (.refl _) rfl
  · rw [hstep]
    exact hmails (retire_silent _ _) rfl

theorem cancelWorker_mails (r : Run) (d : Desk) : (r.cancelWorker d).2.host = d.host ∧
    (d.box r.id).Gets [] ((r.cancelWorker d).2.box r.id) := by
  have hbox : (d.box r.id).Gets [] ((d.modifyBox r.id fun b => { b with waiting := false }).box r.id) := by
    rcases d.box_modifyBox r.id r.id fun b => { b with waiting := false } with hbox | hbox
    · rw [hbox]
      exact .refl _
    · rw [hbox]
      exact .none rfl rfl rfl
  unfold cancelWorker
  split
  · exact ⟨rfl, .refl _⟩
  · rename_i service _ _
    split
    · exact ⟨rfl, .refl _⟩
    · have hsilent := d.interrupt_silent service
      rw [hsilent.box]
      exact ⟨hsilent.host, .refl _⟩
  · dsimp only
    split
    · exact ⟨rfl, hbox⟩
    · exact ⟨rfl, hbox⟩

theorem close_gets (hrun : r.id < d.boxes.size) (ending : Ending) :
    (r.close d ending).desk.host.published = d.host.published ∧
      Mailbox.Gets [] { d.box r.id with closed := true } ((r.close d ending).desk.box r.id) := by
  have hclosed := Desk.box_modifyBox_self d hrun fun b => { b with closed := true }
  have hsilent := Desk.interruptAll_silent (r.revoke (d.modifyBox r.id fun b => { b with closed := true })).2
    r.governor.pending
  obtain ⟨hhost, hgets⟩ := cancelWorker_mails
    ((r.revoke (d.modifyBox r.id fun b => { b with closed := true })).1.cancelled
      (r.revoke (d.modifyBox r.id fun b => { b with closed := true })).2).1
    ((r.revoke (d.modifyBox r.id fun b => { b with closed := true })).2.interruptAll r.governor.pending)
  rw [hsilent.box] at hgets
  have hpublished := congrArg Host.published (hhost.trans hsilent.host)
  refine ⟨hpublished, ?_⟩
  rw [← hclosed]
  exact hgets

theorem close_mails (hrun : r.id < d.boxes.size) (ending : Ending) : (r.close d ending).Mails .main r d t := by
  obtain ⟨hpublished, hbox⟩ := close_gets hrun ending
  exact .closed rfl hpublished hbox

theorem receive_mails (hrun : r.id < d.boxes.size) : (r.receive d).Mails .worker r d ⟨.receive, []⟩ := by
  simp only [receive]
  split
  · exact mails_silent (retire_silent r d) fun _ => .rfl
  · rename_i hopen
    split
    · refine mails_none rfl ?_ fun _ => .rfl
      rw [Desk.box_modifyBox_self d hrun]
      exact .none rfl rfl rfl
    · rename_i mail rest hpop
      have hbox := Desk.box_modifyBox_self d hrun fun b => { b with mail := rest }
      split
      · rename_i f hfault
        refine .began mail rest rfl rfl (Bool.eq_false_iff.2 hopen) hpop rfl hbox (List.cons_ne_nil _ _) fun hreadable => ?_
        obtain ⟨v, heap, hvalue⟩ := hreadable r.heap
        cases hfault.symm.trans hvalue
      · rename_i v heap hvalue
        refine .began mail rest rfl rfl (Bool.eq_false_iff.2 hopen) hpop rfl hbox (List.cons_ne_nil _ _) fun _ => ?_
        refine ⟨_, v, rfl, hvalue, ?_, ?_⟩
        · exact lookup_extend r.scopes mail.scope "handler" false rfl rfl
        · exact lookup_extend r.scopes mail.scope "handler" false rfl rfl

theorem settle_mails (hrun : r.id < d.boxes.size) (ending : Ending) :
    (r.settle d ending).Mails .main r d ⟨.settle ending, []⟩ := by
  simp only [settle]
  split
  · rename_i event _
    refine .posted [event] ?_ ?_ (fun _ _ => .inr ⟨rfl, ending, rfl⟩) (by simp)
    · rw [d.publish_published, Array.toList_push]
    · rw [List.flatMap_singleton]
      exact d.publish_gets hrun event
  · exact mails_silent (.refl d) (by simp)

theorem step_mails (hrun : r.id < d.boxes.size) (hfits : t.Fits) (hsided : t.Sided side)
    (hnext : (step side r d t).thread.Fits) : (step side r d t).Mails side r d t := by
  cases hsided.turn hfits with
  | computes hcomputes =>
    have hcalm := @step_calm side r d t hcomputes
    have hne := (hfits.of_computes hcomputes).1
    refine deed_mails hrun hcalm.deed hne fun _ => iff_of_false (fun hempty => ?_) hne
    rcases Step.fits_cases hnext with hbody | ⟨v, hclosing⟩ | ⟨-, hrest⟩
    · exact hbody.ne_nil hempty
    · rw [hclosing] at hempty
      cases hempty
    · rw [hcalm.inner] at hrest
      cases hrest
  | checkpoint stack => exact checkpoint_mails
  | request work stack => exact request_mails work
  | resume service stack => exact resume_mails service _
  | handled signal => exact leaveHandler_mails hrun (.ok ()) (List.cons_ne_nil _ _)
  | failed e => exact leaveHandler_mails hrun (.error e) (List.cons_ne_nil _ _)
  | ran signal => exact mails_silent (.refl d) nofun
  | stopped e hframe =>
    rcases hframe with rfl | ⟨v, rfl⟩
    · exact close_mails hrun _
    · exact close_mails hrun _
  | joined result v =>
    simp only [step, reply]
    split
    · exact close_mails hrun _
    · exact close_mails hrun _
  | start =>
    cases side with
    | main =>
      refine mails_silent ?_ nofun
      exact ⟨rfl, rfl⟩
    | worker => exact mails_silent (.refl d) fun _ => .rfl
  | receive => exact receive_mails hrun
  | settle ending => exact settle_mails hrun ending
  | finished => exact mails_silent (.refl d) fun _ => .rfl

theorem interruptWorker_mails (hrested : t.Rested) : (r.interruptWorker d t).Mails .worker r d t := by
  cases hrested with
  | resume service stack =>
    simp only [interruptWorker, resume, if_true]
    exact mails_silent (.refl d) fun _ => .rfl
  | recheck stack => exact mails_silent (.refl d) fun _ => .rfl
  | @bare control hresume hrecheck =>
    simp only [interruptWorker]
    exact mails_silent (retire_silent _ d) fun _ => .rfl

end Run

end DeskScript
