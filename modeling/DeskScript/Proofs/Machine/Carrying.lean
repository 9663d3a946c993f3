import DeskScript.Proofs.Machine.Delivery
import DeskScript.Proofs.Machine.Enrolment
import DeskScript.Proofs.Machine.Stacking

set_option autoImplicit false

/-!
# What a run carries out comes from its program

The statements on the stacks of a run, in its functions, in its handlers at the bus and in the mail for them are parts of
its program. So whatever holds of the statements of a program in the root scope, and in every scope of the parts of each
statement for which it holds, holds of everything that the run carries out. Main statements: `Moment.Possible.carries`,
`Moment.Possible.worker_bare`.
-/

namespace DeskScript

namespace Desk

structure Hears (Q : Block Stmt → Prop) (id : RunId) (d : Desk) : Prop where
  handlers : ∀ s ∈ d.host.bus.subscriptions, ∀ body scope, s.listener = .handler id body scope → Q body
  mail : ∀ mail ∈ (d.box id).mail.toList, Q mail.body

namespace Hears

variable {Q : Block Stmt → Prop} {id run : RunId} {r : Run} {d d' : Desk}

theorem of_fewer (h : d.Hears Q id) (hbus : d'.host.bus.subscriptions ⊆ d.host.bus.subscriptions)
    (hmail : (d'.box id).mail.toList ⊆ (d.box id).mail.toList) : d'.Hears Q id :=
  ⟨fun s hs => h.handlers s (hbus hs), fun mail hmem => h.mail mail (hmail hmem)⟩

theorem of_same (h : d.Hears Q id) (hbus : d'.host.bus.roster = d.host.bus.roster)
    (hmail : (d'.box id).mail = (d.box id).mail) : d'.Hears Q id := by
  refine h.of_fewer ?_ (hmail ▸ List.Subset.refl _)
  rw [show d'.host.bus.subscriptions = d.host.bus.subscriptions from congrArg Prod.snd hbus]
  exact List.Subset.refl _

theorem silent (h : d.Hears Q id) (hsilent : d.Silent d') : d'.Hears Q id :=
  h.of_same (congrArg (fun host => host.bus.roster) hsilent.host) (congrArg Mailbox.mail (hsilent.box id))

theorem withdraw (h : d.Hears Q id) (tokens : List Nat) :
    Hears Q id { d with host := { d.host with bus := d.host.bus.unsubscribeAll tokens } } := by
  refine h.of_fewer ?_ (List.Subset.refl _)
  have hfiltered := congrArg Prod.snd (d.host.bus.unsubscribeAll_roster tokens)
  change (d.host.bus.unsubscribeAll tokens).subscriptions = _ at hfiltered
  rw [hfiltered]
  exact fun s hs => (List.mem_filter.1 hs).1

theorem enlist (h : d.Hears Q id) (pattern : String) {listener : Listener}
    (hlistener : ∀ body scope, listener = .handler id body scope → Q body) :
    Hears Q id { d with host := { d.host with bus := (d.host.bus.subscribe pattern listener).2 } } := by
  refine ⟨fun s hs body scope hl => ?_, h.mail⟩
  simp only [Bus.subscribe, List.mem_append, List.mem_singleton] at hs
  rcases hs with hs | rfl
  · exact h.handlers s hs body scope hl
  · exact hlistener body scope hl

theorem post (h : d.Hears Q id) {mail : Mail} (hmail : run = id → Q mail.body) : (d.post run mail).Hears Q id := by
  refine ⟨?_, ?_⟩
  · rw [d.post_host]
    exact h.handlers
  · by_cases hrun : run = id
    · subst hrun
      by_cases hsize : run < d.boxes.size
      · have hgets := d.post_gets hsize mail
        intro other hother
        rw [hgets.mail] at hother
        rcases List.mem_append.1 hother with hother | hother
        · exact h.mail other hother
        · unfold Mailbox.accepted at hother
          split at hother
          · cases hother
          · rw [List.mem_singleton.1 hother]
            exact hmail rfl
      · have hnone : (d.post run mail).box run = {} := by
          rw [Desk.box, Array.getD_eq_getD_getElem?, Array.getElem?_eq_none (d.post_size run mail ▸ Nat.le_of_not_lt hsize)]
          rfl
        rw [hnone]
        exact fun _ hmail => (List.not_mem_nil hmail).elim
    · rw [d.post_ne (Ne.symm hrun)]
      exact h.mail

theorem publish (h : d.Hears Q id) (event : Event) : (d.publish event).Hears Q id := by
  have hfold (listeners : List Listener) (hlisteners : ∀ l ∈ listeners, ∀ body scope, l = .handler id body scope → Q body)
      (d : Desk) (h : d.Hears Q id) : (listeners.foldl (Desk.deliver event) d).Hears Q id := by
    induction listeners generalizing d with
    | nil => exact h
    | cons listener listeners ih =>
      obtain ⟨hlistener, hlisteners⟩ := List.forall_mem_cons.1 hlisteners
      refine ih hlisteners _ ?_
      cases listener with
      | handler run body scope =>
        exact h.post fun hrun => hlistener body scope (hrun ▸ rfl)
      | recorder => exact h.of_same rfl rfl
      | printer lead =>
        simp only [Desk.deliver]
        split
        · exact h.of_same rfl rfl
        · exact h
  refine hfold _ (fun listener hl => ?_) _ (h.of_same rfl rfl)
  obtain ⟨s, hs, rfl⟩ := List.mem_map.1 hl
  exact h.handlers s (List.mem_filter.1 hs).1

theorem handled (h : d.Hears Q id) (run : RunId) : (d.handled run).Hears Q id := by
  refine h.of_same (by rw [d.handled_host]) ?_
  by_cases hrun : id = run
  · subst hrun
    exact Run.handled_mail d id
  · rw [d.handled_box_ne hrun]

theorem op (h : d.Hears Q id) (hrun : r.id ≠ id) (hop : Op r d d') : d'.Hears Q id := by
  cases hop with
  | host host hbus _ => exact h.of_same (congrArg Bus.roster hbus) rfl
  | publish event => exact h.publish event
  | subscribe pattern body scope =>
    refine h.enlist pattern fun body scope hl => ?_
    cases hl
    exact absurd rfl hrun
  | revoke tokens => exact h.withdraw tokens
  | enqueue | open_ => exact h.of_same rfl rfl
  | wake => exact h.silent (d.wakeAll_silent _)
  | interrupt ids => exact h.silent (d.interruptAll_silent ids)
  | handled => exact h.handled r.id
  | box f _ => exact h.of_same rfl (congrArg Mailbox.mail (box_modifyBox_ne d (Ne.symm hrun) f))

theorem ops (h : d.Hears Q id) (hrun : r.id ≠ id) (hops : Relation.ReflTransGen (Op r) d d') : d'.Hears Q id := by
  induction hops with
  | refl => exact h
  | tail _ hop ih => exact ih.op hrun hop

theorem served (h : d.Hears Q id) (r : Run) (service : ServiceId) : (r.stepService d service).2.Hears Q id := by
  have hgets := (r.stepService_gets d service id).1.mail
  rw [Mailbox.accepted_nil, List.append_nil] at hgets
  refine h.of_fewer ?_ (hgets ▸ List.Subset.refl _)
  rw [(r.stepService_idles d service).bus]
  exact List.Subset.refl _

end Hears

end Desk

namespace World

variable {Q : Block Stmt → Prop} {w w' : World} {id : RunId}

theorem start_hears (h : w.desk.Hears Q id) (l : Launch) : (w.start l).2.desk.Hears Q id := by
  obtain ⟨-, hdesk⟩ := w.nameFor_same l.name
  rw [← hdesk] at h
  have hadded {w : World} (h : w.desk.Hears Q id) (r : Run) : (w.addRun r).desk.Hears Q id :=
    h.of_same rfl (congrArg Mailbox.mail (w.box_addRun r id))
  simp only [World.start]
  generalize w.nameFor l.name = named at h
  split
  · split
    · exact hadded ((h.publish _).publish _) _
    · exact hadded (h.publish _) _
  · split
    · exact h.publish _
    · rename_i r _
      exact (hadded (w := named.2.publish _) (h.publish _) r).of_same rfl rfl

theorem Driven.hears (hdriven : w.Driven w') (h : w.desk.Hears Q id) : w'.desk.Hears Q id := by
  cases hdriven with
  | start l => exact start_hears h l
  | @launch name tokens source program hparse limits startedAt heap scopes =>
    have hbox := w.box_launch name program limits startedAt heap scopes id
    exact h.of_same rfl (congrArg Mailbox.mail hbox)
  | publish event => exact h.publish event
  | cancel other =>
    simp only [World.cancel]
    split
    · exact h
    · exact (h.silent (w.desk.interruptAll_silent _)).withdraw _
  | answer p =>
    refine h.of_same (congrArg Bus.roster (w.desk.answer_bus p)) ?_
    simp only [Desk.answer]
    split
    · rfl
    · exact congrArg Mailbox.mail ((Desk.wake_silent _ _ _).box id)
  | wait | configure => exact h
  | turn => exact h.of_same rfl rfl
  | listen pattern hlistener => exact h.enlist pattern fun body scope hl => absurd hl (hlistener id body scope)
  | unlisten token => exact h.withdraw [token]
  | host hbus => exact h.of_same (congrArg Bus.roster hbus) rfl

theorem waited_hears {d : Desk} (h : w.desk.Hears Q id) (hwaited : w.desk.waitForWorld? = some d) : d.Hears Q id := by
  refine h.of_same (congrArg Bus.roster (Desk.waitForWorld_bus hwaited)) ?_
  unfold Desk.waitForWorld? at hwaited
  split at hwaited
  · cases hwaited
    exact congrArg Mailbox.mail ((Desk.wake_silent _ _ _).box id)
  · split at hwaited
    · cases hwaited
    · cases hwaited
      exact congrArg Mailbox.mail ((Desk.wake_silent _ _ _).box id)

end World

namespace Moment

variable {P : ScopeId → Stmt → Prop} {Q : Block Stmt → Prop} {m n : Moment} {id : RunId} {side : Side}

/-- What is not a move of the run itself brings it mail from its own handlers at most. -/
theorem Move.hears_aside (hn : Move m n) (hm : Possible m) (hacts : ∀ side, ¬Acts id side m n) (h : m.desk.Hears Q id) :
    n.desk.Hears Q id := by
  have hother {other : RunId} {side : Side} (hothers : Acts other side m n) : n.desk.Hears Q id := by
    have hid := hm.orderly.acting hothers
    have hne : (m.run other).id ≠ id := by
      rw [hm.attended.named hid]
      rintro rfl
      exact hacts side hothers
    obtain ⟨ready, s, -, hat, hdeals⟩ := hothers.deals hm hid
    have hfewer : Desk.Hears Q id { m.desk with ready } := h.of_same rfl rfl
    rw [hat.desk]
    exact hfewer.ops hne hdeals.desk
  cases hn with
  | reorder _ => exact h.of_same rfl rfl
  | next hn =>
    cases hn with
    | driven hdriven => exact hdriven.hears h
    | waited _ hwaited => exact World.waited_hears h hwaited
    | thread hpop => exact hother (.first hpop)
    | step hpace => exact hother (.step hpace)
    | @entry w entry ready hpop hentry =>
      have hdequeued : (w.dequeued ready).desk.Hears Q id := h.of_same rfl rfl
      cases entry with
      | thread run side => exact absurd rfl (hentry run side)
      | forget | controller => exact hdequeued
      | gathered => exact hdequeued.of_same rfl rfl
      | service service => exact hdequeued.served _ service
    | @rest w active working s _ =>
      obtain ⟨ready, hdesk⟩ := w.rest_desk active working s
      change (w.rest active working s).desk.Hears Q id
      rw [hdesk]
      exact h.of_same rfl rfl

/-- Everything that a run carries out, now or later, satisfies `P`. -/
structure Carries (P : ScopeId → Stmt → Prop) (id : RunId) (m : Moment) : Prop where
  run : (m.run id).Carries P
  threads : ∀ side, (m.thread id side).Carries P
  desk : m.desk.Hears (fun body => ∃ span event scope, P scope (.on span event body)) id

theorem Acts.handlers (hacts : Acts id side m n) (hm : Possible m) (h : Carries P id m) :
    ∀ s ∈ n.desk.host.bus.subscriptions, ∀ body scope, s.listener = .handler id body scope →
      ∃ span event scope, P scope (.on span event body) := by
  have hfewer (hsub : n.desk.host.bus.subscriptions ⊆ m.desk.host.bus.subscriptions) :=
    fun s hs => h.desk.handlers s (hsub hs)
  cases hacts.enrols hm with
  | same hbus _ =>
    refine hfewer ?_
    rw [show n.desk.host.bus.subscriptions = _ from congrArg Prod.snd hbus]
    exact List.Subset.refl _
  | added other _ pattern body scope hthread hbus _ _ =>
    intro s hs body' scope' hl
    rw [show n.desk.host.bus.subscriptions = _ from congrArg Prod.snd hbus] at hs
    rcases List.mem_append.1 hs with hs | hs
    · exact h.desk.handlers s hs body' scope' hl
    · obtain rfl := List.mem_singleton.1 hs
      cases hl
      obtain ⟨side, v, stack, hthread⟩ := hthread
      have hframe := (h.threads side).frames (.subscribe body scope)
      rw [hthread] at hframe
      exact hframe List.mem_cons_self
  | withdrawn other _ _ hbus _ _ =>
    refine hfewer ?_
    rw [Bus.unsubscribeAll_roster] at hbus
    rw [show n.desk.host.bus.subscriptions = _ from congrArg Prod.snd hbus]
    exact fun s hs => (List.mem_filter.1 hs).1
  | listened pattern hlistener hbus _ =>
    intro s hs body scope hl
    rw [show n.desk.host.bus.subscriptions = _ from congrArg Prod.snd hbus] at hs
    rcases List.mem_append.1 hs with hs | hs
    · exact h.desk.handlers s hs body scope hl
    · obtain rfl := List.mem_singleton.1 hs
      exact absurd hl (hlistener id body scope)
  | unlistened w token hresting hlater =>
    subst hresting
    subst hlater
    exact hfewer fun s hs => (List.mem_filter.1 hs).1

/-- The mail that a step leaves in the box was there, or it is from a handler at the bus. -/
theorem Acts.hears (hacts : Acts id side m n) (hm : Possible m) (h : Carries P id m) :
    n.desk.Hears (fun body => ∃ span event scope, P scope (.on span event body)) id := by
  refine ⟨hacts.handlers hm h, fun mail hmail => ?_⟩
  have hmem := List.mem_append_right (started id m n) hmail
  rw [← hacts.conserves hm (hm.orderly.acting hacts)] at hmem
  rcases List.mem_append.1 hmem with hmem | hmem
  · exact h.desk.mail mail hmem
  · unfold delivered at hmem
    split at hmem
    · cases hmem
    · obtain ⟨event, -, hmem⟩ := List.mem_flatMap.1 hmem
      obtain ⟨listener, hlistener, hsome⟩ := List.mem_filterMap.1 hmem
      obtain ⟨s, hs, rfl⟩ := List.mem_map.1 hlistener
      obtain ⟨body, hl⟩ : ∃ body, s.listener = .handler id body mail.scope ∧ mail.body = body := by
        cases hlistener : s.listener with
        | handler run body scope =>
          rw [hlistener] at hsome
          simp only [Listener.mail?] at hsome
          split at hsome
          · rename_i hrun
            cases hsome
            exact ⟨body, hrun ▸ rfl, rfl⟩
          · cases hsome
        | recorder | printer =>
          rw [hlistener] at hsome
          cases hsome
      rw [hl.2]
      exact h.desk.handlers s (List.mem_filter.1 hs).1 body mail.scope hl.1

theorem Carries.move (h : Carries P id m) (hP : Stmt.Closed P) (hm : Possible m) (hid : id < m.size) (hn : Move m n) :
    Carries P id n := by
  have hdesk : n.desk.Hears (fun body => ∃ span event scope, P scope (.on span event body)) id := by
    by_cases hacts : ∃ side, Acts id side m n
    · obtain ⟨side, hacts⟩ := hacts
      exact hacts.hears hm h
    · exact hn.hears_aside hm (fun side hside => hacts ⟨side, hside⟩) h.desk
  have hbuilt {side : Side} {s : Step} {table : Dict Routine} {depth : Nat} (hat : n.At id side s)
      (hother : n.thread id side.other = m.thread id side.other) (hbuilds : s.Builds P table (m.thread id side).base depth) :
      Carries P id n := by
    refine ⟨hat.run ▸ hbuilds.run, fun other => ?_, hdesk⟩
    by_cases hsame : other = side
    · subst hsame
      rw [hat.thread]
      exact hbuilds.thread (h.threads other)
    · obtain rfl : other = side.other := by cases other <;> cases side <;> first | rfl | exact absurd rfl hsame
      rw [hother]
      exact h.threads side.other
  rcases hn.acts_or_same hm.sound hid with ⟨side, hacts⟩ | ⟨hsame, hthreads⟩
  · obtain ⟨hother, ready, -, hat | ⟨rfl, hrest, hat⟩⟩ := hacts.stride hm.sound
    · refine hbuilt hat hother (Run.step_builds hP h.run (h.threads side) (hm.sound.thread id side) fun _ mail hmail => ?_)
      rw [hm.attended.named hid] at hmail
      obtain ⟨span, event, scope, hon⟩ := h.desk.mail mail hmail
      exact hP scope _ hon
    · have hrested := (hm.attended.sided hid .worker).rested (hm.sound.thread id .worker) hrest
      exact hbuilt hat hother (Run.interruptWorker_builds h.run hrested)
  · exact ⟨h.run.same hsame, fun side => hthreads side ▸ h.threads side, hdesk⟩

/-- A run that has not begun carries its program, and nobody hears for it. -/
theorem Carries.launched (hn : Move m n) (hm : Possible m) (hold : m.size ≤ id) (hnew : id < n.size)
    (hprogram : ∀ p, (n.run id).program = some p → ∀ s ∈ p.statements, P 0 s) : Carries P id n := by
  obtain ⟨hunbegun, hthreads⟩ := hn.unbegun hold hnew
  refine ⟨⟨hprogram, fun name f hf => ?_⟩, fun side => ?_, ?_⟩
  · rw [hunbegun.functions] at hf
    cases hf
  · rw [hthreads side]
    exact ⟨trivial, nofun⟩
  · refine hn.hears_aside hm (fun side hacts => ?_) ⟨fun s hs body scope hl => ?_, ?_⟩
    · exact absurd (hm.orderly.acting hacts) (Nat.not_lt.2 hold)
    · exact absurd (hm.orderly.desk.listeners s hs id body scope hl) (Nat.not_lt.2 hold)
    · rw [box_absent hm.orderly.desk hold]
      exact nofun

/-- Everything that a run carries out comes from its program. -/
theorem Possible.carries (hP : Stmt.Closed P) (hm : Possible m) (hid : id < m.size)
    (hprogram : ∀ p, (m.run id).program = some p → ∀ s ∈ p.statements, P 0 s) : Carries P id m := by
  induction hm with
  | fresh host config holds hbus => exact absurd hid (Nat.not_lt_zero id)
  | @move m n hm hn ih =>
    by_cases hold : id < m.size
    · rw [(hn.terms hm hold).program] at hprogram
      exact (ih hold hprogram).move hP hm hold hn
    · exact .launched hn hm (Nat.le_of_not_lt hold) hid hprogram

end Moment

namespace Stmt

mutual

def handlerless : Stmt → Bool
  | on _ _ _ => false
  | counted _ ⟨_, body⟩ _ | conditional _ ⟨_, body⟩ _ | foreach _ _ _ ⟨_, body⟩ _ | define _ _ _ ⟨_, body⟩ =>
    allHandlerless body
  | branch _ _ ⟨_, yes⟩ none => allHandlerless yes
  | branch _ _ ⟨_, yes⟩ (some ⟨_, no⟩) => allHandlerless yes && allHandlerless no
  | attempt _ ⟨_, tryBlock⟩ ⟨_, catchBlock⟩ _ => allHandlerless tryBlock && allHandlerless catchBlock
  | assign _ _ _ | print _ _ | leave _ | skip _ | giveBack _ _ | command _ _ | emit _ _ _ | evaluate _ _ => true

def allHandlerless : List Stmt → Bool
  | [] => true
  | s :: rest => handlerless s && allHandlerless rest

end

theorem allHandlerless_iff {stmts : List Stmt} : allHandlerless stmts = true ↔ ∀ s ∈ stmts, s.handlerless = true := by
  induction stmts with
  | nil => exact ⟨fun _ => nofun, fun _ => rfl⟩
  | cons s rest ih => rw [allHandlerless, Bool.and_eq_true, ih, List.forall_mem_cons]

theorem handlerless_closed : Closed fun _ s => s.handlerless = true := by
  intro scope s hs part hpart inner
  revert part
  cases s with
  | counted | conditional | foreach | define => exact allHandlerless_iff.1 hs
  | branch span condition yes no =>
    cases no with
    | none => exact allHandlerless_iff.1 hs
    | some no =>
      obtain ⟨hyes, hno⟩ := Bool.and_eq_true_iff.1 hs
      exact List.forall_mem_append.2 ⟨allHandlerless_iff.1 hyes, allHandlerless_iff.1 hno⟩
  | attempt span tryBlock catchBlock errorVar =>
    obtain ⟨htry, hcatch⟩ := Bool.and_eq_true_iff.1 hs
    exact List.forall_mem_append.2 ⟨allHandlerless_iff.1 htry, allHandlerless_iff.1 hcatch⟩
  | on => cases hs
  | _ => exact nofun

end Stmt

def Run.Handlerless (r : Run) : Prop := ∀ p, r.program = some p → ∀ s ∈ p.statements, s.handlerless = true

namespace Moment

variable {m n : Moment} {id : RunId} {side : Side}

/-- The worker of a program without handlers never runs a body. -/
theorem Possible.worker_bare (hm : Possible m) (hid : id < m.size) (h : (m.run id).Handlerless) :
    (m.thread id .worker).stack = [] := by
  refine hm.run_induction (P := fun id m => (m.run id).Handlerless → (m.thread id .worker).stack = []) hid
    (fun _ hthreads _ => ?_) (fun {m n id} hm hid hn ih h => ?_) h
  · rw [hthreads]
  · have hbefore : (m.run id).Handlerless := fun p hp => h p ((hn.terms hm hid).program.trans hp)
    have hbare := ih hbefore
    have hcarries := hm.carries Stmt.handlerless_closed hid hbefore
    have hworker (hacts : Acts id .worker m n) : (n.thread id .worker).stack = [] := by
      obtain ⟨ready, s, hat, -, hmails⟩ := hacts.mails hm hid
      rw [hat.thread]
      cases hmails with
      | posted _ _ _ _ hbusy => exact (hbusy rfl).2 hbare
      | began mail rest _ _ _ hpop =>
        -- mail would come from an `on`
        rw [hm.attended.named hid] at hpop
        obtain ⟨span, event, scope, hon⟩ := hcarries.desk.mail mail (Queue.toList_of_pop? _ _ _ hpop ▸ List.mem_cons_self)
        cases hon
      | handled _ _ hbare => exact hbare
      | closed hside => cases hside
    rcases hn.acts_or_still hm.sound hid .worker with hacts | hstill
    · exact hworker hacts
    · exact (congrArg Thread.stack hstill).trans hbare

end Moment

end DeskScript
