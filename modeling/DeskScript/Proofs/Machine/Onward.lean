import DeskScript.Proofs.Machine.Desk
import DeskScript.Machine.Service

set_option autoImplicit false

/-!
# The desk goes onward

Whatever a thread does at a desk, the queue only grows at its end, services keep their owners, one that was interrupted
stays so, and they change in two ways only: one that waits is woken, and a new one is opened; both are then in the queue.
What one step of a service does to it is in `Run.stepService_serves`.
-/

namespace DeskScript

namespace Desk

inductive Change (d d' : Desk) (id : ServiceId) : Prop
  | same (h : id < d.services.size) (hstage : (d'.service id).stage = (d.service id).stage)
  | woken (h : id < d.services.size) (hparked : (d.service id).stage = .parked) (r : Except Fault Plain)
      (hwoken : (d'.service id).stage = .woken r) (hready : .service id ∈ d'.ready.toList)
  | opened (h : d.services.size ≤ id) (hfresh : (d'.service id).stage = .fresh)
      (hready : .service id ∈ d'.ready.toList)

structure Onward (d d' : Desk) : Prop where
  ready : d.ready.toList <+: d'.ready.toList
  size : d.services.size ≤ d'.services.size
  owner : ∀ id, id < d.services.size → (d'.service id).run = (d.service id).run ∧
    (d'.service id).side = (d.service id).side ∧ (d'.service id).work = (d.service id).work
  cancelled : ∀ id, id < d.services.size → (d.service id).cancelled = true → (d'.service id).cancelled = true
  stage : ∀ id, id < d'.services.size → Change d d' id

variable {d d' d'' : Desk}

theorem Onward.trans (h : d.Onward d') (h' : d'.Onward d'') : d.Onward d'' := by
  refine ⟨h.ready.trans h'.ready, Nat.le_trans h.size h'.size, fun id hid => ?_, fun id hid hcancelled => ?_,
    fun id hid => ?_⟩
  · obtain ⟨hrun, hside, hwork⟩ := h'.owner id (Nat.lt_of_lt_of_le hid h.size)
    rw [hrun, hside, hwork]
    exact h.owner id hid
  · exact h'.cancelled id (Nat.lt_of_lt_of_le hid h.size) (h.cancelled id hid hcancelled)
  · cases h'.stage id hid with
    | same hid' hsame =>
      cases h.stage id hid' with
      | same hold hsame' => exact .same hold (hsame.trans hsame')
      | woken hold hparked r hwoken hready => exact .woken hold hparked r (hsame.trans hwoken) (h'.ready.subset hready)
      | opened hnew hfresh hready => exact .opened hnew (hsame.trans hfresh) (h'.ready.subset hready)
    | woken hid' hparked r hwoken hready =>
      cases h.stage id hid' with
      | same hold hsame => exact .woken hold (hsame.symm.trans hparked) r hwoken hready
      | woken _ _ _ hwoken' _ => rw [hwoken'] at hparked; cases hparked
      | opened _ hfresh _ => rw [hfresh] at hparked; cases hparked
    | opened hnew hfresh hready => exact .opened (Nat.le_trans h.size hnew) hfresh hready

theorem Onward.of_services (hservices : d'.services = d.services) (hready : d.ready.toList <+: d'.ready.toList) :
    d.Onward d' := by
  have hservice (id : ServiceId) : d'.service id = d.service id := by rw [service, service, hservices]
  refine ⟨hready, Nat.le_of_eq (congrArg Array.size hservices.symm), fun id _ => ?_, fun id _ hcancelled => ?_,
    fun id hid => .same ?_ ?_⟩
  · rw [hservice]
    exact ⟨rfl, rfl, rfl⟩
  · rwa [hservice]
  · rwa [hservices] at hid
  · rw [hservice]

theorem Onward.refl (d : Desk) : d.Onward d := .of_services rfl (List.prefix_refl _)

theorem enqueue_ready (d : Desk) (e : Ready) : (d.enqueue e).ready.toList = d.ready.toList ++ [e] := d.ready.toList_push e

theorem enqueue_onward (d : Desk) (e : Ready) : d.Onward (d.enqueue e) := by
  refine .of_services rfl ?_
  rw [enqueue_ready]
  exact List.prefix_append _ _

theorem mem_enqueue (d : Desk) (e : Ready) : e ∈ (d.enqueue e).ready.toList := by
  rw [enqueue_ready]
  exact List.mem_append_right _ List.mem_cons_self

theorem service_modify (d : Desk) (id other : ServiceId) (f : Service → Service) :
    ({ d with services := d.services.modify id f } : Desk).service other =
      if other = id ∧ id < d.services.size then f (d.service id) else d.service other := by
  simp only [service, Array.getD_eq_getD_getElem?, Array.getElem?_modify]
  by_cases hid : id = other
  · subst hid
    by_cases hsize : id < d.services.size
    · simp [hsize]
    · simp [hsize]
  · simp [hid, Ne.symm hid]

/-- A service that waits is woken, whatever else of it is set. -/
theorem wakeWith_onward {id : ServiceId} {f : Service → Service} {r : Except Fault Plain}
    (howner : ∀ s, (f s).run = s.run ∧ (f s).side = s.side ∧ (f s).work = s.work)
    (hcancelled : ∀ s, s.cancelled = true → (f s).cancelled = true) (hstage : ∀ s, (f s).stage = .woken r)
    (hparked : (d.service id).stage = .parked) :
    d.Onward ({ d with services := d.services.modify id f }.enqueue (.service id)) := by
  have hservice (other : ServiceId) :
      ({ d with services := d.services.modify id f }.enqueue (.service id)).service other =
        if other = id ∧ id < d.services.size then f (d.service id) else d.service other := d.service_modify id other f
  have hsize : ({ d with services := d.services.modify id f }.enqueue (.service id)).services.size = d.services.size :=
    Array.size_modify
  refine ⟨?_, Nat.le_of_eq hsize.symm, fun other _ => ?_, fun other _ hother => ?_, fun other hother => ?_⟩
  · rw [enqueue_ready]
    exact List.prefix_append _ _
  · rw [hservice]
    split
    · rename_i hid
      rw [hid.1]
      exact howner _
    · exact ⟨rfl, rfl, rfl⟩
  · rw [hservice]
    split
    · rename_i hid
      exact hcancelled _ (hid.1 ▸ hother)
    · exact hother
  · rw [hsize] at hother
    by_cases hid : other = id
    · subst hid
      refine .woken hother hparked r ?_ (mem_enqueue _ _)
      rw [hservice, if_pos ⟨rfl, hother⟩]
      exact hstage _
    · refine .same hother ?_
      rw [hservice, if_neg fun h => hid h.1]

theorem wake_onward (d : Desk) (id : ServiceId) (r : Except Fault Plain) : d.Onward (d.wake id r) := by
  unfold wake
  split
  · rename_i hparked
    exact wakeWith_onward (fun _ => ⟨rfl, rfl, rfl⟩) (fun _ h => h) (fun _ => rfl) hparked
  · exact .refl d

theorem interrupt_onward (d : Desk) (id : ServiceId) : d.Onward (d.interrupt id) := by
  unfold interrupt
  split
  · exact .refl d
  · rename_i hparked
    exact wakeWith_onward (fun _ => ⟨rfl, rfl, rfl⟩) (fun _ _ => rfl) (fun _ => rfl) hparked
  · refine ⟨List.prefix_refl _, Nat.le_of_eq Array.size_modify.symm, fun other _ => ?_, fun other _ hother => ?_,
      fun other hother => .same ?_ ?_⟩
    · rw [service_modify]
      split
      · rename_i hid
        rw [hid.1]
        exact ⟨rfl, rfl, rfl⟩
      · exact ⟨rfl, rfl, rfl⟩
    · rw [service_modify]
      split
      · rfl
      · exact hother
    · rwa [Array.size_modify] at hother
    · rw [service_modify]
      split
      · rename_i hid
        rw [hid.1]
      · rfl

theorem size_open (d : Desk) (run : RunId) (side : Side) (work : Work) :
    (d.open_ run side work).2.services.size = d.services.size + 1 := by
  simp [open_, enqueue]

theorem service_open (d : Desk) (run : RunId) (side : Side) (work : Work) (id : ServiceId) :
    (d.open_ run side work).2.service id = if id = d.services.size then { run, side, work } else d.service id := by
  simp only [service, open_, enqueue, Array.getD_eq_getD_getElem?, Array.getElem?_push]
  split <;> rfl

theorem open_onward (d : Desk) (run : RunId) (side : Side) (work : Work) : d.Onward (d.open_ run side work).2 := by
  refine ⟨?_, by rw [size_open]; exact Nat.le_succ _, fun id hid => ?_, fun id hid hcancelled => ?_, fun id hid => ?_⟩
  · simp only [open_, enqueue_ready]
    exact List.prefix_append _ _
  · rw [service_open, if_neg (Nat.ne_of_lt hid)]
    exact ⟨rfl, rfl, rfl⟩
  · rwa [service_open, if_neg (Nat.ne_of_lt hid)]
  · rw [size_open] at hid
    by_cases hnew : id = d.services.size
    · subst hnew
      refine .opened (Nat.le_refl _) ?_ (mem_enqueue _ _)
      rw [service_open, if_pos rfl]
    · refine .same (Nat.lt_of_le_of_ne (Nat.le_of_lt_succ hid) hnew) ?_
      rw [service_open, if_neg hnew]

theorem foldl_onward {α : Type} {f : Desk → α → Desk} (hf : ∀ (d : Desk) (a : α), d.Onward (f d a)) (as : List α)
    (d : Desk) : d.Onward (as.foldl f d) := by
  induction as generalizing d with
  | nil => exact .refl d
  | cons a as ih => exact (hf d a).trans (ih _)

theorem wakeAll_onward (d : Desk) (ids : List ServiceId) : d.Onward (d.wakeAll ids) :=
  foldl_onward (fun d id => d.wake_onward id _) ids d

theorem interruptAll_onward (d : Desk) (ids : List ServiceId) : d.Onward (d.interruptAll ids) :=
  foldl_onward interrupt_onward ids d

theorem modifyBox_onward (d : Desk) (run : RunId) (f : Mailbox → Mailbox) : d.Onward (d.modifyBox run f) :=
  .of_services rfl (List.prefix_refl _)

theorem post_onward (d : Desk) (run : RunId) (mail : Mail) : d.Onward (d.post run mail) := by
  simp only [post]
  split
  · exact .refl d
  · split
    · exact (d.modifyBox_onward run _).trans (enqueue_onward _ _)
    · exact d.modifyBox_onward run _

theorem deliver_onward (event : Event) (d : Desk) (listener : Listener) : d.Onward (deliver event d listener) := by
  unfold deliver
  split
  · exact d.post_onward _ _
  · exact .of_services rfl (List.prefix_refl _)
  · split
    · exact .of_services rfl (List.prefix_refl _)
    · exact .refl d

theorem publish_onward (d : Desk) (event : Event) : d.Onward (d.publish event) := by
  refine Onward.trans ?_ (foldl_onward (deliver_onward event) _ _)
  exact .of_services rfl (List.prefix_refl _)

theorem handled_onward (d : Desk) (run : RunId) : d.Onward (d.handled run) := by
  simp only [handled]
  split
  · exact (d.modifyBox_onward run _).trans (wakeAll_onward _ _)
  · exact d.modifyBox_onward run _

theorem answer_onward (d : Desk) (p : Plain) : d.Onward (d.answer p) := by
  unfold answer
  split
  · exact .of_services rfl (List.prefix_refl _)
  · refine Onward.trans ?_ (wake_onward _ _ _)
    exact .of_services rfl (List.prefix_refl _)

theorem waitForWorld_onward (h : d.waitForWorld? = some d') : d.Onward d' := by
  unfold waitForWorld? at h
  split at h
  · cases h
    refine Onward.trans ?_ (wake_onward _ _ _)
    exact .of_services rfl (List.prefix_refl _)
  · split at h
    · cases h
    · cases h
      refine Onward.trans ?_ (wake_onward _ _ _)
      exact .of_services rfl (List.prefix_refl _)

end Desk

def Stage.isCounting : Stage → Bool
  | .ticking .. | .slept => true
  | .fresh | .parked | .woken _ | .done _ => false

namespace Run

/-- What a step of a service comes to. Only one that waits for idleness is kept by the governor. -/
inductive Outcome (d : Desk) (id : ServiceId) (r' : Run) (d' : Desk) : Prop
  | same (hstage : (d'.service id).stage = (d.service id).stage)
      (hwaits : (d.service id).stage = .parked ∨ ∃ result, (d.service id).stage = .done result)
  | done (result : ServiceResult) (hstage : (d'.service id).stage = .done result)
      (hready : .thread (d.service id).run (d.service id).side ∈ d'.ready.toList)
  | parked (hfresh : (d.service id).stage = .fresh) (hstage : (d'.service id).stage = .parked)
      (hwaits : (d.service id).work = .idle → id ∈ r'.governor.waiters ∧ r'.governor.idle = false)
  | again (hstage : (d'.service id).stage.isCounting = true) (hready : .service id ∈ d'.ready.toList)
      (hbefore : (d.service id).stage = .fresh ∧ (d.service id).work ≠ .idle ∨ (d.service id).stage.isCounting = true)

structure Serves (r : Run) (d : Desk) (id : ServiceId) (r' : Run) (d' : Desk) : Prop where
  ready : d.ready.toList <+: d'.ready.toList
  size : d'.services.size = d.services.size
  others : ∀ other, other ≠ id → d'.service other = d.service other
  owner : (d'.service id).run = (d.service id).run ∧ (d'.service id).side = (d.service id).side ∧
    (d'.service id).work = (d.service id).work
  cancelled : (d'.service id).cancelled = (d.service id).cancelled
  idle : r'.governor.idle = r.governor.idle
  waiters : ∀ other ∈ r.governor.waiters, other ∈ r'.governor.waiters
  outcome : id < d.services.size → Outcome d id r' d'

variable {r r' : Run} {d d' d₀ : Desk} {id : ServiceId}

/-- The service is given a stage, and nothing else of it changes. -/
theorem Serves.setStage {stage : Stage} (hservices : d'.services = d.services.modify id fun s => { s with stage })
    (hready : d.ready.toList <+: d'.ready.toList) (hidle : r'.governor.idle = r.governor.idle)
    (hwaiters : ∀ other ∈ r.governor.waiters, other ∈ r'.governor.waiters)
    (houtcome : (d'.service id).stage = stage → Outcome d id r' d') : r.Serves d id r' d' := by
  have hservice (other : ServiceId) : d'.service other =
      if other = id ∧ id < d.services.size then { d.service id with stage } else d.service other := by
    rw [← d.service_modify id other fun s => { s with stage }]
    simp only [Desk.service, hservices]
  refine ⟨hready, by rw [hservices, Array.size_modify], fun other hother => ?_, ?_, ?_, hidle, hwaiters, fun hid => ?_⟩
  · rw [hservice, if_neg fun h => hother h.1]
  · rw [hservice]
    split <;> exact ⟨rfl, rfl, rfl⟩
  · rw [hservice]
    split <;> rfl
  · refine houtcome ?_
    rw [hservice, if_pos ⟨rfl, hid⟩]

/-- What is prepared at the desk beforehand does not count. -/
theorem Serves.prepared (h : r.Serves d id r' d') (hservices : d.services = d₀.services) (hready : d.ready = d₀.ready) :
    r.Serves d₀ id r' d' := by
  have hservice (other : ServiceId) : d.service other = d₀.service other := by rw [Desk.service, Desk.service, hservices]
  refine ⟨hready ▸ h.ready, hservices ▸ h.size, fun other hother => ?_, ?_, ?_, h.idle, h.waiters, fun hid => ?_⟩
  · rw [← hservice]
    exact h.others other hother
  · rw [← hservice]
    exact h.owner
  · rw [← hservice]
    exact h.cancelled
  · cases h.outcome (hservices ▸ hid) with
    | same hstage hwaits => exact .same (hservice id ▸ hstage) (hservice id ▸ hwaits)
    | done result hstage hmem => exact .done result hstage (hservice id ▸ hmem)
    | parked hfresh hstage hwaits => exact .parked (hservice id ▸ hfresh) hstage (hservice id ▸ hwaits)
    | again hstage hmem hbefore => exact .again hstage hmem (hservice id ▸ hbefore)

theorem serves_complete (r : Run) (d : Desk) (id : ServiceId) (result : ServiceResult) (heap : Heap) :
    r.Serves d id { r with heap } (d.complete id result) := by
  refine .setStage rfl ?_ rfl (fun _ h => h) fun hstage => .done result hstage (Desk.mem_enqueue _ _)
  simp only [Desk.complete, Desk.enqueue_ready]
  exact List.prefix_append _ _

theorem serves_again (r : Run) (d : Desk) (id : ServiceId) {stage : Stage} (hcounting : stage.isCounting = true)
    (hbefore : (d.service id).stage = .fresh ∧ (d.service id).work ≠ .idle ∨ (d.service id).stage.isCounting = true) :
    r.Serves d id r ((d.setStage id stage).enqueue (.service id)) := by
  refine .setStage rfl ?_ rfl (fun _ h => h) fun hstage => .again ?_ (Desk.mem_enqueue _ _) hbefore
  · rw [Desk.enqueue_ready]
    exact List.prefix_append _ _
  · rw [hstage]
    exact hcounting

theorem serves_park (r : Run) (d : Desk) (id : ServiceId) (hfresh : (d.service id).stage = .fresh)
    (hwork : (d.service id).work ≠ .idle) : r.Serves d id r (d.setStage id .parked) := by
  refine .setStage rfl (List.prefix_refl _) rfl (fun _ h => h) fun hstage => .parked hfresh hstage fun hidle => ?_
  exact absurd hidle hwork

theorem answerCommand_serves (r : Run) (d : Desk) (id : ServiceId) (answer : CommandAnswer) (args : Plain) :
    r.Serves d id (r.answerCommand d id answer args).1 (r.answerCommand d id answer args).2 := by
  unfold answerCommand
  split
  · split
    · exact r.serves_complete d id _ _
    · exact r.serves_complete d id _ r.heap
  · exact r.serves_complete d id _ r.heap

theorem tickCommand_serves (r : Run) (d : Desk) (id : ServiceId) (ticks : Nat) (answer : CommandAnswer) (args : Plain)
    (hbefore : (d.service id).stage = .fresh ∧ (d.service id).work ≠ .idle ∨ (d.service id).stage.isCounting = true) :
    r.Serves d id (r.tickCommand d id ticks answer args).1 (r.tickCommand d id ticks answer args).2 := by
  cases ticks with
  | zero => exact r.answerCommand_serves d id answer args
  | succ left => exact r.serves_again d id rfl hbefore

theorem beginDialog_serves (r : Run) (d : Desk) (id : ServiceId) (kind : DialogKind) (message default : String)
    (hfresh : (d.service id).stage = .fresh) (hwork : (d.service id).work ≠ .idle) :
    r.Serves d id r (d.beginDialog id kind message default) := by
  unfold Desk.beginDialog
  split
  · exact (r.serves_complete (d.recordDialog kind message) id _ r.heap).prepared rfl rfl
  · exact r.serves_complete d id _ r.heap
  · dsimp only
    split
    · exact (r.serves_complete (d.recordDialog kind message) id _ r.heap).prepared rfl rfl
    · exact Serves.prepared (r.serves_park { d.recordDialog kind message with dialogs := d.dialogs ++ [id] } id hfresh hwork)
        rfl rfl
  · exact Serves.prepared (r.serves_park _ id hfresh hwork) rfl rfl

theorem beginSleep_serves (r : Run) (d : Desk) (id : ServiceId) (ms : Time) (hfresh : (d.service id).stage = .fresh)
    (hwork : (d.service id).work ≠ .idle) : r.Serves d id r (d.beginSleep id ms) := by
  simp only [Desk.beginSleep]
  split
  · exact Serves.prepared (r.serves_again _ id rfl (.inl ⟨hfresh, hwork⟩)) rfl rfl
  · split
    · exact Serves.prepared (r.serves_park _ id hfresh hwork) rfl rfl
    · exact r.serves_again d id rfl (.inl ⟨hfresh, hwork⟩)

theorem beginService_serves (r : Run) (d : Desk) (id : ServiceId) (hfresh : (d.service id).stage = .fresh) :
    r.Serves d id (r.beginService d id (d.service id).work).1 (r.beginService d id (d.service id).work).2 := by
  have hcommand (name : String) (args : Plain) (hwork : (d.service id).work ≠ .idle) :
      r.Serves d id (r.beginCommand d id name args).1 (r.beginCommand d id name args).2 :=
    Serves.prepared (r.tickCommand_serves _ id _ _ _ (.inl ⟨hfresh, hwork⟩)) rfl rfl
  cases hwork : (d.service id).work with
  | dialog kind message default => exact r.beginDialog_serves d id kind message default hfresh (by rw [hwork]; nofun)
  | command name args => exact hcommand name args (by rw [hwork]; nofun)
  | request q => exact hcommand _ _ (by rw [hwork]; nofun)
  | sleep ms => exact r.beginSleep_serves d id ms hfresh (by rw [hwork]; nofun)
  | idle =>
    simp only [beginService]
    split
    · exact r.serves_complete d id _ r.heap
    · rename_i hidle
      refine .setStage rfl (List.prefix_refl _) rfl (fun _ h => List.mem_append_left _ h) fun hstage => ?_
      refine .parked hfresh hstage fun _ => ?_
      exact ⟨List.mem_append_right _ List.mem_cons_self, Bool.eq_false_iff.2 hidle⟩
  | join =>
    simp only [beginService]
    split
    · exact r.serves_complete d id _ r.heap
    · have hjoin : (d.service id).work ≠ .idle := by rw [hwork]; nofun
      exact Serves.prepared (r.serves_park _ id hfresh hjoin) rfl rfl

theorem stepService_serves (r : Run) (d : Desk) (id : ServiceId) :
    r.Serves d id (r.stepService d id).1 (r.stepService d id).2 := by
  have hsame (hwaits : (d.service id).stage = .parked ∨ ∃ result, (d.service id).stage = .done result) :
      r.Serves d id r d :=
    ⟨List.prefix_refl _, rfl, fun _ _ => rfl, ⟨rfl, rfl, rfl⟩, rfl, rfl, fun _ h => h, fun _ => .same rfl hwaits⟩
  simp only [stepService]
  split
  · rename_i result hstage
    exact hsame (.inr ⟨result, hstage⟩)
  · exact r.serves_complete d id _ r.heap
  · rename_i hfresh
    exact r.beginService_serves d id hfresh
  · rename_i hstage
    exact r.tickCommand_serves d id _ _ _ (.inr (by rw [hstage]; rfl))
  · exact r.serves_complete d id _ r.heap
  · exact r.serves_complete d id _ r.heap
  · rename_i hstage
    exact hsame (.inl hstage)

end Run

end DeskScript
