import Mathlib.Logic.Relation
import DeskScript.Proofs.Machine.Interleaving

set_option autoImplicit false

/-!
# Dealings with the desk

A step of a thread does a few things at the desk, one after the other: it changes the host, publishes, subscribes, puts its
own threads into the queue, opens, wakes and interrupts services, and changes its own mailbox. `Run.step_deals` says so
once for all steps; what every one of these things keeps, a step keeps.
-/

namespace DeskScript

def Ready.isOf (run : RunId) : Ready → Bool
  | .thread other _ | .gathered other => other = run
  | .service _ | .forget _ | .controller => false

inductive Desk.Op (r : Run) (d : Desk) : Desk → Prop
  | host (host : Host) (hbus : host.bus = d.host.bus) (hpublished : host.published = d.host.published) :
      Op r d { d with host }
  | publish (event : Event) : Op r d (d.publish event)
  | subscribe (pattern : String) (body : Block Stmt) (scope : ScopeId) : Op r d { d with host := { d.host with
      bus := (d.host.bus.subscribe pattern (.handler r.id body scope)).2 } }
  | revoke (tokens : List Nat) : Op r d { d with host := { d.host with bus := d.host.bus.unsubscribeAll tokens } }
  | enqueue (entry : Ready) (h : entry.isOf r.id = true) : Op r d (d.enqueue entry)
  | open_ (side : Side) (work : Work) : Op r d (d.open_ r.id side work).2
  | wake : Op r d (d.wakeAll r.governor.waiters)
  | interrupt (ids : List ServiceId) : Op r d (d.interruptAll ids)
  | handled : Op r d (d.handled r.id)
  | box (f : Mailbox → Mailbox) (h : ∀ b, (f b).joiners = b.joiners) : Op r d (d.modifyBox r.id f)

theorem Desk.Deed.op {r : Run} {d d' : Desk} (h : d.Deed r.id d') : Op r d d' := by
  cases h with
  | host host hbus hpublished => exact .host host hbus hpublished
  | publish event _ => exact .publish event
  | subscribe pattern body scope => exact .subscribe pattern body scope

theorem Desk.Op.onward {r : Run} {d d' : Desk} (h : Op r d d') : d.Onward d' := by
  cases h with
  | host | subscribe | revoke => exact .of_services rfl (List.prefix_refl _)
  | publish event => exact d.publish_onward event
  | enqueue entry _ => exact d.enqueue_onward entry
  | open_ side work => exact d.open_onward r.id side work
  | wake => exact d.wakeAll_onward _
  | interrupt ids => exact d.interruptAll_onward ids
  | handled => exact d.handled_onward r.id
  | box f _ => exact d.modifyBox_onward r.id f

theorem Desk.ops_onward {r : Run} {d d' : Desk} (h : Relation.ReflTransGen (Op r) d d') : d.Onward d' := by
  induction h with
  | refl => exact .refl d
  | tail _ hop ih => exact ih.trans hop.onward

/-- What a step leaves of the desk, of those who wait for idleness, and of the ending. -/
structure Step.Deals (r : Run) (d : Desk) (t : Thread) (s : Step) : Prop where
  desk : Relation.ReflTransGen (Desk.Op r) d s.desk
  waiters : ∀ service ∈ s.run.governor.waiters, service ∈ r.governor.waiters
  ending : s.run.ending = r.ending ∨ ∃ ending, t.control = .settle ending ∧ s.run.ending = some ending

namespace Run

open Relation

variable {side : Side} {r r' : Run} {d d' : Desk} {t : Thread} {stack : List Frame}

/-- A step that only its deeds at the desk are known of. -/
theorem deals_of {s : Step} (hdesk : ReflTransGen (Desk.Op r) d s.desk)
    (hwaiters : s.run.governor.waiters = r.governor.waiters) (hending : s.run.ending = r.ending) : s.Deals r d t :=
  ⟨hdesk, fun _ hmem => hwaiters ▸ hmem, .inl hending⟩

theorem becomeIdle_ops (hwaiters : r'.governor.waiters = r.governor.waiters) :
    ReflTransGen (Desk.Op r) d (r'.becomeIdle d).2 := by
  unfold becomeIdle
  split
  · exact .refl
  · rw [hwaiters]
    exact .single .wake

theorem becomeIdle_waiters (r : Run) (d : Desk) : ∀ service ∈ (r.becomeIdle d).1.governor.waiters,
    service ∈ r.governor.waiters := by
  unfold becomeIdle
  split
  · exact fun _ hmem => hmem
  · exact nofun

theorem becomeIdle_ending (r : Run) (d : Desk) : (r.becomeIdle d).1.ending = r.ending := by
  unfold becomeIdle
  split <;> rfl

theorem request_deals (work : Work) : (r.request d side work stack).Deals r d t := by
  unfold request
  split
  · exact deals_of .refl rfl rfl
  · cases side with
    | main => exact deals_of (.single (.open_ .main work)) rfl rfl
    | worker =>
      refine ⟨?_, ?_, .inl ?_⟩
      · exact (ReflTransGen.single (.open_ .worker work)).trans (becomeIdle_ops rfl)
      · exact becomeIdle_waiters _ _
      · exact becomeIdle_ending _ _

theorem resume_deals (service : ServiceId) (releases interrupted : Bool) :
    (r.resume d service releases interrupted stack).Deals r d t := by
  unfold resume
  dsimp only
  split
  · exact deals_of .refl rfl rfl
  · split <;> exact deals_of .refl rfl rfl

theorem retire_ops (hid : r'.id = r.id) : ReflTransGen (Desk.Op r) d (r'.retire d).desk := by
  unfold retire
  dsimp only
  split
  · exact .single (.enqueue _ (decide_eq_true hid))
  · exact .refl

theorem leaveHandler_deals (result : Except Raised Unit) : (r.leaveHandler d result).Deals r d t := by
  obtain ⟨r', d', hjudged, hstep⟩ := r.leaveHandler_judged d result
  obtain ⟨hid, hwaiters, hending, hdesk⟩ : r'.id = r.id ∧ r'.governor.waiters = r.governor.waiters ∧
      r'.ending = r.ending ∧ ReflTransGen (Desk.Op r) d d' := by
    cases hjudged with
    | well => exact ⟨rfl, rfl, rfl, .refl⟩
    | aborted e => exact ⟨rfl, rfl, rfl, .single (.interrupt _)⟩
  have hidle : ReflTransGen (Desk.Op r) d'
      (({ r' with governor := { r'.governor with handling := false } } : Run).becomeIdle d').2 := becomeIdle_ops hwaiters
  have hid' : (r'.handlerFinished d').1.id = r.id := (r'.handlerFinished_quiet d').id.trans hid
  have hfinished : ReflTransGen (Desk.Op r) d (r'.handlerFinished d').2 := by
    refine (hdesk.trans hidle).tail ?_
    rw [show (r'.handlerFinished d').2 = (Run.becomeIdle _ d').2.handled (r'.handlerFinished d').1.id from rfl, hid']
    exact .handled
  have hwaiters' (service : ServiceId) (hmem : service ∈ (r'.handlerFinished d').1.governor.waiters) :
      service ∈ r.governor.waiters := by
    rw [← hwaiters]
    exact becomeIdle_waiters { r' with governor := { r'.governor with handling := false } } d' service hmem
  have hending' : (r'.handlerFinished d').1.ending = r.ending := (becomeIdle_ending _ _).trans hending
  rcases hstep with hstep | hstep
  · rw [hstep]
    exact ⟨hfinished, hwaiters', .inl hending'⟩
  · rw [hstep]
    exact ⟨hfinished.trans (retire_ops hid'), hwaiters', .inl hending'⟩

theorem cancelWorker_ops (hid : r'.id = r.id) : ReflTransGen (Desk.Op r) d (r'.cancelWorker d).2 := by
  unfold cancelWorker
  split
  · exact .single (.enqueue _ (decide_eq_true hid))
  · split
    · exact .refl
    · exact .single (.interrupt [_])
  · dsimp only
    have hbox : Desk.Op r d (d.modifyBox r'.id fun b => { b with waiting := false }) := by
      rw [hid]
      exact .box _ fun _ => rfl
    split
    · exact (ReflTransGen.single hbox).tail (.enqueue _ (decide_eq_true hid))
    · exact .single hbox

theorem cancelWorker_ending (r : Run) (d : Desk) : (r.cancelWorker d).1.ending = r.ending := by
  unfold cancelWorker
  split
  · rfl
  · split <;> rfl
  · rfl

theorem close_deals (ending : Ending) : (r.close d ending).Deals r d t := by
  have hclosed : Desk.Op r d (d.modifyBox r.id fun b => { b with closed := true }) := .box _ fun _ => rfl
  have hdesk : ReflTransGen (Desk.Op r) d
      ((r.revoke (d.modifyBox r.id fun b => { b with closed := true })).1.cancelled
        (r.revoke (d.modifyBox r.id fun b => { b with closed := true })).2).2 :=
    ((ReflTransGen.single hclosed).tail (.revoke r.subscriptions)).tail (.interrupt r.governor.pending)
  have hgovernor := r.close_governor d ending
  refine deals_of (hdesk.trans ?_) ?_ ?_
  · exact cancelWorker_ops rfl
  · rw [hgovernor]
  · exact cancelWorker_ending _ _

theorem hoist_ending (r : Run) (stmts : List Stmt) : (r.hoist stmts).ending = r.ending := by
  unfold hoist
  induction stmts generalizing r with
  | nil => rfl
  | cons s stmts ih =>
    rw [List.foldl_cons, ih]
    split <;> rfl

theorem receive_deals : (r.receive d).Deals r d t := by
  simp only [receive]
  split
  · exact deals_of (retire_ops rfl) rfl rfl
  · split
    · exact deals_of (.single (.box _ fun _ => rfl)) rfl rfl
    · have hbox (rest : Queue Mail) : Desk.Op r d (d.modifyBox r.id fun b => { b with mail := rest }) :=
        .box _ fun _ => rfl
      split
      · exact deals_of (.single (hbox _)) rfl rfl
      · exact deals_of (.single (hbox _)) rfl rfl

theorem settle_deals (ending : Ending) : (r.settle d ending).Deals r d ⟨.settle ending, []⟩ := by
  refine ⟨?_, fun _ hmem => hmem, .inr ⟨ending, rfl, rfl⟩⟩
  simp only [settle]
  split
  · exact .single (.publish _)
  · exact .refl

theorem step_deals (hfits : t.Fits) (hsided : t.Sided side) : (step side r d t).Deals r d t := by
  cases hsided.turn hfits with
  | computes hcomputes =>
    have hcalm := @step_calm side r d t hcomputes
    exact deals_of (.single hcalm.deed.op) (congrArg Governor.waiters hcalm.alike.governor) hcalm.alike.ending
  | checkpoint stack =>
    simp only [step, checkpoint]
    split
    · exact deals_of .refl rfl rfl
    · split <;> exact deals_of .refl rfl rfl
  | request work stack => exact request_deals work
  | resume service stack => exact resume_deals service _ false
  | handled signal => exact leaveHandler_deals (.ok ())
  | failed e => exact leaveHandler_deals (.error e)
  | ran signal => exact deals_of .refl rfl rfl
  | stopped e hframe =>
    rcases hframe with rfl | ⟨v, rfl⟩
    · exact close_deals _
    · exact close_deals _
  | joined result v =>
    simp only [step, reply]
    split
    · exact close_deals _
    · exact close_deals _
  | start =>
    cases side with
    | main =>
      have hentry : (Ready.thread r.id .worker).isOf r.id = true := decide_eq_true rfl
      exact deals_of (.single (.enqueue _ hentry)) (congrArg Governor.waiters (r.hoist_governor _)) (r.hoist_ending _)
    | worker => exact deals_of .refl rfl rfl
  | receive => exact receive_deals
  | settle ending => exact settle_deals ending
  | finished => exact deals_of .refl rfl rfl

theorem interruptWorker_deals (hrested : t.Rested) : (r.interruptWorker d t).Deals r d t := by
  cases hrested with
  | resume service stack =>
    simp only [interruptWorker, resume, if_true]
    exact deals_of .refl rfl rfl
  | recheck stack => exact deals_of .refl rfl rfl
  | @bare control hresume hrecheck =>
    simp only [interruptWorker]
    exact deals_of (retire_ops rfl) rfl rfl

end Run

end DeskScript
