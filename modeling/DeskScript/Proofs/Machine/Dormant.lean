import DeskScript.Proofs.Machine.Settling

set_option autoImplicit false

/-!
# Scripts that do not parse

A script that does not parse has ended when it is started. Nothing at the desk is about its run then, and whatever others
do, nothing will be: its threads never begin. Main statement: `Moment.Dormant.moves`.
-/

namespace DeskScript

namespace Desk

/-- Nothing at the desk lets a thread of the run go on: no entry of the queue, no service, and no wait for mail. -/
structure Ignores (id : RunId) (d : Desk) : Prop where
  ready : ∀ entry ∈ d.ready.toList, entry.isOf id = false
  owners : ∀ service, service < d.services.size → (d.service service).run ≠ id
  waiting : (d.box id).waiting = false

namespace Ignores

variable {id run : RunId} {r : Run} {d d' : Desk} {service : ServiceId}

theorem of_same (h : d.Ignores id) (hready : d'.ready.toList ⊆ d.ready.toList) (hservices : d'.services = d.services)
    (hbox : d'.box id = d.box id) : d'.Ignores id := by
  refine ⟨fun entry hentry => h.ready entry (hready hentry), fun service hsize => ?_, ?_⟩
  · rw [Desk.service, hservices]
    exact h.owners service (hservices ▸ hsize)
  · rw [hbox]
    exact h.waiting

theorem host (h : d.Ignores id) (host : Host) : Ignores id { d with host } := h.of_same (List.Subset.refl _) rfl rfl

theorem enqueue (h : d.Ignores id) {entry : Ready} (hentry : entry.isOf id = false) : (d.enqueue entry).Ignores id := by
  refine ⟨fun e he => ?_, h.owners, h.waiting⟩
  rw [enqueue_ready] at he
  rcases List.mem_append.1 he with he | he
  · exact h.ready e he
  · rw [List.mem_singleton.1 he]
    exact hentry

theorem modify (h : d.Ignores id) (service : ServiceId) {f : Service → Service} (hf : ∀ s, (f s).run = s.run) :
    Ignores id { d with services := d.services.modify service f } := by
  refine ⟨h.ready, fun other hsize => ?_, h.waiting⟩
  have hother := h.owners other (Nat.lt_of_lt_of_eq hsize Array.size_modify)
  rw [service_modify]
  split
  · rename_i hsame
    rw [hf, ← hsame.1]
    exact hother
  · exact hother

theorem setStage (h : d.Ignores id) (service : ServiceId) (stage : Stage) : (d.setStage service stage).Ignores id :=
  h.modify service fun _ => rfl

theorem wake (h : d.Ignores id) (service : ServiceId) (reply : Except Fault Plain) : (d.wake service reply).Ignores id := by
  unfold Desk.wake
  split
  · exact (h.setStage service _).enqueue rfl
  · exact h

theorem interrupt (h : d.Ignores id) (service : ServiceId) : (d.interrupt service).Ignores id := by
  unfold Desk.interrupt
  split
  · exact h
  · refine Ignores.enqueue (h.modify service ?_) rfl
    exact fun _ => rfl
  · exact h.modify service fun _ => rfl

theorem foldl {α : Type} {f : Desk → α → Desk} (hf : ∀ d, d.Ignores id → ∀ a, (f d a).Ignores id) (as : List α)
    (h : d.Ignores id) : (as.foldl f d).Ignores id := by
  induction as generalizing d with
  | nil => exact h
  | cons a as ih => exact ih (hf d h a)

theorem wakeAll (h : d.Ignores id) (services : List ServiceId) : (d.wakeAll services).Ignores id :=
  h.foldl (fun _ hd service => hd.wake service _) services

theorem interruptAll (h : d.Ignores id) (services : List ServiceId) : (d.interruptAll services).Ignores id :=
  h.foldl (fun _ hd service => hd.interrupt service) services

theorem open_ (h : d.Ignores id) (hrun : run ≠ id) (side : Side) (work : Work) : (d.open_ run side work).2.Ignores id := by
  have hopened : Ignores id { d with services := d.services.push { run, side, work } } := by
    refine ⟨h.ready, fun service hsize => ?_, h.waiting⟩
    have hservice := d.service_open run side work service
    change ((d.open_ run side work).2.service service).run ≠ id
    rw [hservice]
    split
    · exact hrun
    · rename_i hnew
      rw [Array.size_push] at hsize
      exact h.owners service (Nat.lt_of_le_of_ne (Nat.le_of_lt_succ hsize) hnew)
  exact hopened.enqueue rfl

theorem modifyBox (h : d.Ignores id) {f : Mailbox → Mailbox} (hf : run = id → ∀ b, b.waiting = false → (f b).waiting = false) :
    (d.modifyBox run f).Ignores id := by
  refine ⟨h.ready, h.owners, ?_⟩
  rcases d.box_modifyBox run id f with hbox | hbox
  · rw [hbox]
    exact h.waiting
  · by_cases hrun : run = id
    · rw [hbox]
      exact hf hrun _ h.waiting
    · rw [box_modifyBox_ne d (Ne.symm hrun)]
      exact h.waiting

theorem post (h : d.Ignores id) (run : RunId) (mail : Mail) : (d.post run mail).Ignores id := by
  have hpushed : (d.modifyBox run fun b =>
      { b with mail := b.mail.push mail, unfinished := b.unfinished + 1, waiting := false }).Ignores id :=
    h.modifyBox fun _ _ _ => rfl
  simp only [Desk.post]
  split
  · exact h
  · split
    · rename_i hwaiting
      refine hpushed.enqueue (decide_eq_false fun hrun => ?_)
      subst hrun
      cases hwaiting.symm.trans h.waiting
    · exact hpushed

theorem publish (h : d.Ignores id) (event : Event) : (d.publish event).Ignores id := by
  refine Ignores.foldl (fun d hd listener => ?_) _ (h.host _)
  cases listener with
  | handler run body scope => exact hd.post run _
  | recorder => exact hd.host _
  | printer lead =>
    simp only [Desk.deliver]
    split
    · exact hd.host _
    · exact hd

theorem handled (h : d.Ignores id) (run : RunId) : (d.handled run).Ignores id := by
  simp only [Desk.handled]
  split
  · refine Ignores.wakeAll (h.modifyBox ?_) _
    exact fun _ _ hwaiting => hwaiting
  · exact h.modifyBox fun _ _ hwaiting => hwaiting

theorem op (h : d.Ignores id) (hrun : r.id ≠ id) (hop : Op r d d') : d'.Ignores id := by
  cases hop with
  | host | subscribe | revoke => exact h.host _
  | publish event => exact h.publish event
  | enqueue entry hentry =>
    refine h.enqueue ?_
    cases entry with
    | thread run | gathered run =>
      obtain rfl : run = r.id := of_decide_eq_true hentry
      exact decide_eq_false hrun
    | _ => cases hentry
  | open_ side work => exact h.open_ hrun side work
  | wake => exact h.wakeAll _
  | interrupt ids => exact h.interruptAll ids
  | handled => exact h.handled r.id
  | box f _ => exact h.modifyBox fun hsame => absurd hsame hrun

theorem ops (h : d.Ignores id) (hrun : r.id ≠ id) (hops : Relation.ReflTransGen (Op r) d d') : d'.Ignores id := by
  induction hops with
  | refl => exact h
  | tail _ hop ih => exact ih.op hrun hop

theorem complete (h : d.Ignores id) (hservice : (d.service service).run ≠ id) (result : ServiceResult) :
    (d.complete service result).Ignores id :=
  (h.setStage service _).enqueue (decide_eq_false hservice)

theorem again (h : d.Ignores id) (service : ServiceId) (stage : Stage) :
    ((d.setStage service stage).enqueue (.service service)).Ignores id :=
  (h.setStage service stage).enqueue rfl

theorem beginDialog (h : d.Ignores id) (hservice : (d.service service).run ≠ id) (kind : DialogKind)
    (message default : String) : (d.beginDialog service kind message default).Ignores id := by
  have hrecorded : (d.recordDialog kind message).Ignores id := h.host _
  have hparked {d' : Desk} (hready : d'.ready = d.ready) (hservices : d'.services = d.services) (hboxes : d'.boxes = d.boxes) :
      (d'.setStage service .parked).Ignores id := by
    refine Ignores.setStage (h.of_same (hready ▸ List.Subset.refl _) hservices ?_) service _
    rw [Desk.box, Desk.box, hboxes]
  unfold Desk.beginDialog
  split
  · exact hrecorded.complete hservice _
  · exact h.complete hservice _
  · dsimp only
    split
    · exact hrecorded.complete hservice _
    · refine hparked ?_ ?_ ?_ <;> rfl
  · refine hparked ?_ ?_ ?_ <;> rfl

theorem beginSleep (h : d.Ignores id) (service : ServiceId) (ms : Time) : (d.beginSleep service ms).Ignores id := by
  simp only [Desk.beginSleep]
  split
  · exact Ignores.again (h.host _) service _
  · split
    · refine Ignores.setStage (h.of_same ?_ ?_ ?_) service _
      · exact List.Subset.refl _
      · rfl
      · rfl
    · exact h.again service _

theorem answerCommand (h : d.Ignores id) (hservice : (d.service service).run ≠ id) (answer : CommandAnswer) (args : Plain) :
    (r.answerCommand d service answer args).2.Ignores id := by
  unfold Run.answerCommand
  split
  · split <;> exact h.complete hservice _
  · exact h.complete hservice _

theorem tickCommand (h : d.Ignores id) (hservice : (d.service service).run ≠ id) (ticks : Nat) (answer : CommandAnswer)
    (args : Plain) : (r.tickCommand d service ticks answer args).2.Ignores id := by
  cases ticks with
  | zero => exact h.answerCommand hservice answer args
  | succ left => exact h.again service _

theorem beginService (h : d.Ignores id) (hservice : (d.service service).run ≠ id) (work : Work) :
    (r.beginService d service work).2.Ignores id := by
  have hcommand (name : String) (args : Plain) : (r.beginCommand d service name args).2.Ignores id := by
    have hrecorded : (d.recordCommand name args).Ignores id := h.host _
    exact hrecorded.tickCommand hservice _ _ _
  cases work with
  | dialog kind message default => exact h.beginDialog hservice kind message default
  | command name args => exact hcommand name args
  | request q => exact hcommand _ _
  | sleep ms => exact h.beginSleep service ms
  | idle =>
    simp only [Run.beginService]
    split
    · exact h.complete hservice _
    · exact h.setStage service _
  | join =>
    simp only [Run.beginService]
    split
    · exact h.complete hservice _
    · refine Ignores.setStage (h.modifyBox ?_) service _
      exact fun _ _ hwaiting => hwaiting

theorem stepService (h : d.Ignores id) (hservice : (d.service service).run ≠ id) :
    (r.stepService d service).2.Ignores id := by
  simp only [Run.stepService]
  split
  · exact h
  · exact h.complete hservice _
  · exact h.beginService hservice _
  · exact h.tickCommand hservice _ _ _
  · exact h.complete hservice _
  · exact h.complete hservice _
  · exact h

theorem answer (h : d.Ignores id) (p : Plain) : (d.answer p).Ignores id := by
  have hdialogs (dialogs : List ServiceId) : Ignores id { d with dialogs } := h.of_same (List.Subset.refl _) rfl rfl
  unfold Desk.answer
  split
  · exact hdialogs _
  · exact Ignores.wake (hdialogs _) _ _

theorem waited (h : d.Ignores id) (hwaited : d.waitForWorld? = some d') : d'.Ignores id := by
  unfold Desk.waitForWorld? at hwaited
  split at hwaited
  · cases hwaited
    refine Ignores.wake (h.of_same ?_ ?_ ?_) _ _
    · exact List.Subset.refl _
    · rfl
    · rfl
  · split at hwaited
    · cases hwaited
    · cases hwaited
      refine Ignores.wake (h.of_same ?_ ?_ ?_) _ _
      · exact List.Subset.refl _
      · rfl
      · rfl

end Ignores

end Desk

namespace World

variable {w w' : World} {id : RunId}

theorem addRun_ignores (h : w.desk.Ignores id) (r : Run) : (w.addRun r).desk.Ignores id :=
  h.of_same (List.Subset.refl _) rfl (w.box_addRun r id)

theorem start_ignores (h : w.desk.Ignores id) (hid : id < w.runs.size) (l : Launch) : (w.start l).2.desk.Ignores id := by
  obtain ⟨hruns, hdesk⟩ := w.nameFor_same l.name
  rw [← hdesk] at h
  rw [← hruns] at hid
  have hnew {entry : Ready} {side : Side} (hentry : entry = .thread (w.nameFor l.name).2.runs.size side) :
      entry.isOf id = false := by
    rw [hentry]
    exact decide_eq_false (Nat.ne_of_gt hid)
  simp only [World.start]
  generalize w.nameFor l.name = named at h hnew
  split
  · split
    · exact addRun_ignores ((h.publish _).publish _) _
    · exact addRun_ignores (h.publish _) _
  · split
    · exact h.publish _
    · rename_i r _
      exact Desk.Ignores.enqueue (addRun_ignores (w := named.2.publish _) (h.publish _) r) (hnew rfl)

theorem Driven.ignores (hdriven : w.Driven w') (h : w.desk.Ignores id) (hid : id < w.runs.size) : w'.desk.Ignores id := by
  cases hdriven with
  | start l => exact start_ignores h hid l
  | launch name hparse limits startedAt heap scopes =>
    exact Desk.Ignores.enqueue (addRun_ignores h _) (decide_eq_false (Nat.ne_of_gt hid))
  | publish event => exact h.publish event
  | cancel other =>
    simp only [World.cancel]
    split
    · exact h
    · exact (h.interruptAll _).host _
  | answer p => exact h.answer p
  | wait | configure => exact h
  | turn => exact h.enqueue rfl
  | listen | unlisten | host => exact h.host _

theorem rest_ignores {active : RunId} {side : Side} {s : Step} (h : s.desk.Ignores id) (hactive : s.run.id ≠ id) :
    (w.rest active side s).desk.Ignores id := by
  have hstored : (s.store side).2.Ignores id := by
    unfold Step.store
    dsimp only
    split
    · exact h.enqueue (decide_eq_false hactive)
    · exact h
  unfold rest
  dsimp only
  split
  · unfold concluded
    dsimp only
    split
    · exact (hstored.enqueue rfl).enqueue rfl
    · exact hstored.enqueue rfl
  · exact hstored

end World

namespace Moment

variable {m n : Moment} {id : RunId} {side : Side} {ending : Ending}

structure Dormant (id : RunId) (ending : Ending) (m : Moment) : Prop where
  desk : m.desk.Ignores id
  active : m.active? ≠ some id
  threads : ∀ side, m.thread id side = {}
  ending : (m.run id).ending = some ending

theorem Dormant.not_acts (h : Dormant id ending m) (side : Side) : ¬Acts id side m n := by
  intro hacts
  cases hacts with
  | @first w ready hpop =>
    have hready := Queue.toList_of_pop? _ _ _ hpop
    have hmem : .thread id side ∈ w.desk.ready.toList := hready ▸ List.mem_cons_self
    cases (h.desk.ready _ hmem).symm.trans (decide_eq_true rfl)
  | step _ => exact h.active rfl

theorem Dormant.acts_ignores {other : RunId} (h : Dormant id ending m) (hm : Possible m) (hacts : Acts other side m n) :
    n.desk.Ignores id := by
  have horderly := hm.orderly
  have hother := horderly.acting hacts
  have hne : (m.run other).id ≠ id := by
    rw [hm.attended.named hother]
    rintro rfl
    exact h.not_acts side hacts
  obtain ⟨ready, s, hready, hat, hdeals⟩ := hacts.deals hm hother
  have hfewer : Desk.Ignores id { m.desk with ready } := h.desk.of_same hready rfl rfl
  rw [hat.desk]
  exact hfewer.ops hne hdeals.desk

theorem Dormant.move (h : Dormant id ending m) (hm : Possible m) (hid : id < m.size) (hn : Move m n) : Dormant id ending n := by
  obtain ⟨hthreads, hending⟩ := hn.stands hm.sound hid fun side => h.not_acts side
  refine ⟨?_, fun hactive => ?_, fun side => (hthreads side).trans (h.threads side), hending.trans h.ending⟩
  · have hfewer {w : World} {ready : Queue Ready} (hdesk : w.desk.Ignores id) (hready : ready.toList ⊆ w.desk.ready.toList) :
        (w.dequeued ready).desk.Ignores id := hdesk.of_same hready rfl rfl
    have hdesk := h.desk
    cases hn with
    | reorder hperm => exact hfewer hdesk hperm.symm.subset
    | next hn =>
      cases hn with
      | driven hdriven => exact hdriven.ignores hdesk hid
      | waited _ hwaited => exact Desk.Ignores.waited hdesk hwaited
      | thread hpop => exact h.acts_ignores hm (.first hpop)
      | step hpace => exact h.acts_ignores hm (.step hpace)
      | @entry w entry ready hpop hentry =>
        have hready := Queue.toList_of_pop? _ _ _ hpop
        have hmem : entry ∈ w.desk.ready.toList := hready ▸ List.mem_cons_self
        have hdequeued : (w.dequeued ready).desk.Ignores id := hfewer hdesk (hready ▸ List.subset_cons_self _ _)
        have hknows : w.desk.Knows w.runs.size entry := hm.orderly.desk.ready entry hmem
        cases entry with
        | thread run side => exact absurd rfl (hentry run side)
        | forget | controller => exact hdequeued
        | gathered other =>
          have hother : Ready.isOf id (.gathered other) = false := hdesk.ready _ hmem
          exact hdequeued.enqueue hother
        | service service => exact hdequeued.stepService (hdequeued.owners service hknows)
      | @rest w active working s _ =>
        refine World.rest_ignores hdesk ?_
        have hname := hm.attended.named (hm.orderly.active active rfl)
        rw [(at_within w active working s).run] at hname
        rw [hname]
        exact fun hsame => h.active (congrArg some hsame)
  · cases n with
    | resting w => cases hactive
    | within w active working s =>
      obtain rfl : active = id := Option.some.inj hactive
      exact h.not_acts working hn.acts_of_within

theorem Dormant.moves (h : Dormant id ending m) (hm : Possible m) (hid : id < m.size) (hn : Moves m n) :
    Dormant id ending n :=
  hn.run_induction hm hid (fun hm hid hn h => h.move hm hid hn) h

end Moment

end DeskScript
