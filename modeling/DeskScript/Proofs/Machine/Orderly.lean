import DeskScript.Proofs.Machine.Dealings

set_option autoImplicit false

/-!
# A desk in order

Every entry of the queue, every service and every handler on the bus belongs to a run that is there; whoever waits for the
end of a run's handlers waits for nothing else. Main statement: `Moment.Possible.orderly`.
-/

namespace DeskScript

namespace Desk

def outside (d : Desk) : List ServiceId := d.dialogs ++ d.timers.map (·.2) ++ d.typed.map (·.1)

def Knows (runs : Nat) (d : Desk) : Ready → Prop
  | .thread run _ | .gathered run => run < runs
  | .service service => service < d.services.size
  | .forget _ | .controller => True

structure Orderly (runs : Nat) (d : Desk) : Prop where
  boxes : d.boxes.size = runs
  owners : ∀ service, service < d.services.size → (d.service service).run < runs
  ready : ∀ entry ∈ d.ready.toList, d.Knows runs entry
  listeners : ∀ s ∈ d.host.bus.subscriptions, ∀ run body scope, s.listener = .handler run body scope → run < runs
  outside : ∀ service ∈ d.outside, service < d.services.size ∧ (d.service service).work ≠ .join
  joiners : ∀ run, ∀ service ∈ (d.box run).joiners, service < d.services.size ∧ (d.service service).run = run

variable {runs : Nat} {d d' : Desk}

theorem box_modifyBox_ne (d : Desk) {run other : RunId} (h : other ≠ run) (f : Mailbox → Mailbox) :
    (d.modifyBox run f).box other = d.box other := by
  simp only [box, modifyBox, Array.getD_eq_getD_getElem?, Array.getElem?_modify, if_neg (Ne.symm h)]

theorem box_modifyBox_self (d : Desk) {run : RunId} (h : run < d.boxes.size) (f : Mailbox → Mailbox) :
    (d.modifyBox run f).box run = f (d.box run) := by
  simp only [box, modifyBox, Array.getD_eq_getD_getElem?, Array.getElem?_modify, Array.getElem?_eq_getElem h]
  rfl

theorem service_absent {service : ServiceId} (h : d.services.size ≤ service) : d.service service = default := by
  simp [Desk.service, Array.getD_eq_getD_getElem?, h]

theorem lt_of_parked {service : ServiceId} (h : (d.service service).stage = .parked) : service < d.services.size := by
  refine Nat.lt_of_not_le fun hsize => ?_
  rw [service_absent hsize] at h
  cases h

namespace Orderly

theorem fewer (h : d.Orderly runs) {ready : Queue Ready} (hready : ready.toList ⊆ d.ready.toList) :
    Orderly runs { d with ready } := by
  refine ⟨h.boxes, h.owners, fun entry hentry => ?_, h.listeners, h.outside, h.joiners⟩
  have hknows := h.ready entry (hready hentry)
  cases entry <;> exact hknows

theorem enqueue (h : d.Orderly runs) {entry : Ready} (hentry : d.Knows runs entry) : (d.enqueue entry).Orderly runs := by
  refine ⟨h.boxes, h.owners, fun e he => ?_, h.listeners, h.outside, h.joiners⟩
  rw [enqueue_ready] at he
  rcases List.mem_append.1 he with he | he
  · exact h.ready e he
  · rw [List.mem_singleton.1 he]
    cases entry <;> exact hentry

theorem modifyBox (h : d.Orderly runs) (run : RunId) {f : Mailbox → Mailbox}
    (hf : ∀ service ∈ (f (d.box run)).joiners, service ∈ (d.box run).joiners ∨
      service < d.services.size ∧ (d.service service).run = run) : (d.modifyBox run f).Orderly runs := by
  refine ⟨Array.size_modify.trans h.boxes, h.owners, fun e he => ?_, h.listeners, h.outside, fun other service hmem => ?_⟩
  · cases e <;> exact h.ready _ he
  · by_cases hother : other = run
    · subst hother
      rcases d.box_modifyBox other other f with hbox | hbox
      · rw [hbox] at hmem
        exact h.joiners other service hmem
      · rw [hbox] at hmem
        exact (hf service hmem).elim (h.joiners other service) fun hservice => hservice
    · rw [box_modifyBox_ne d hother] at hmem
      exact h.joiners other service hmem

theorem modify (h : d.Orderly runs) (id : ServiceId) {f : Service → Service}
    (hf : ∀ s, (f s).run = s.run ∧ (f s).work = s.work) :
    Orderly runs { d with services := d.services.modify id f } := by
  have hsize : (d.services.modify id f).size = d.services.size := Array.size_modify
  have hservice (service : ServiceId) :
      (({ d with services := d.services.modify id f } : Desk).service service).run = (d.service service).run ∧
      (({ d with services := d.services.modify id f } : Desk).service service).work = (d.service service).work := by
    rw [service_modify]
    split
    · rename_i hid
      rw [hid.1]
      exact hf _
    · exact ⟨rfl, rfl⟩
  refine ⟨h.boxes, fun service hk => ?_, fun e he => ?_, h.listeners, fun service hk => ?_, fun run service hk => ?_⟩
  · rw [(hservice service).1]
    exact h.owners service (hsize ▸ hk)
  · have hknows := h.ready e he
    cases e with
    | service service => exact Nat.lt_of_lt_of_eq hknows hsize.symm
    | _ => exact hknows
  · rw [(hservice service).2]
    obtain ⟨hlt, hwork⟩ := h.outside service hk
    exact ⟨Nat.lt_of_lt_of_eq hlt hsize.symm, hwork⟩
  · rw [(hservice service).1]
    obtain ⟨hlt, hrun⟩ := h.joiners run service hk
    exact ⟨Nat.lt_of_lt_of_eq hlt hsize.symm, hrun⟩

theorem setStage (h : d.Orderly runs) (service : ServiceId) (stage : Stage) : (d.setStage service stage).Orderly runs :=
  h.modify service fun _ => ⟨rfl, rfl⟩

theorem wake (h : d.Orderly runs) (service : ServiceId) (r : Except Fault Plain) : (d.wake service r).Orderly runs := by
  unfold Desk.wake
  split
  · rename_i hparked
    refine (h.setStage service (.woken r)).enqueue ?_
    exact Nat.lt_of_lt_of_eq (lt_of_parked hparked) Array.size_modify.symm
  · exact h

theorem interrupt (h : d.Orderly runs) (service : ServiceId) : (d.interrupt service).Orderly runs := by
  unfold Desk.interrupt
  split
  · exact h
  · rename_i hparked
    refine enqueue (h.modify service ?_) ?_
    · exact fun _ => ⟨rfl, rfl⟩
    · exact Nat.lt_of_lt_of_eq (lt_of_parked hparked) Array.size_modify.symm
  · exact h.modify service fun _ => ⟨rfl, rfl⟩

theorem foldl {α : Type} {f : Desk → α → Desk} (hf : ∀ d, d.Orderly runs → ∀ a, (f d a).Orderly runs) (as : List α)
    (h : d.Orderly runs) : (as.foldl f d).Orderly runs := by
  induction as generalizing d with
  | nil => exact h
  | cons a as ih => exact ih (hf d h a)

theorem wakeAll (h : d.Orderly runs) (ids : List ServiceId) : (d.wakeAll ids).Orderly runs :=
  h.foldl (fun _ hd id => hd.wake id _) ids

theorem interruptAll (h : d.Orderly runs) (ids : List ServiceId) : (d.interruptAll ids).Orderly runs :=
  h.foldl (fun _ hd id => hd.interrupt id) ids

theorem open_ (h : d.Orderly runs) {run : RunId} (hrun : run < runs) (side : Side) (work : Work) :
    (d.open_ run side work).2.Orderly runs := by
  have hsize := d.size_open run side work
  have hold {service : ServiceId} (hlt : service < d.services.size) :
      service < (d.open_ run side work).2.services.size ∧ (d.open_ run side work).2.service service = d.service service := by
    refine ⟨hsize ▸ Nat.lt_succ_of_lt hlt, ?_⟩
    rw [service_open, if_neg (Nat.ne_of_lt hlt)]
  refine ⟨h.boxes, fun service hk => ?_, fun e he => ?_, h.listeners, fun service hk => ?_, fun other service hk => ?_⟩
  · rw [service_open]
    split
    · exact hrun
    · rename_i hnew
      exact h.owners service (Nat.lt_of_le_of_ne (Nat.le_of_lt_succ (Nat.lt_of_lt_of_eq hk hsize)) hnew)
  · simp only [Desk.open_, enqueue_ready] at he
    rcases List.mem_append.1 he with he | he
    · have hknows := h.ready e he
      cases e with
      | service service => exact (hold hknows).1
      | _ => exact hknows
    · rw [List.mem_singleton.1 he]
      exact Nat.lt_of_lt_of_eq (Nat.lt_succ_self _) hsize.symm
  · obtain ⟨hlt, hwork⟩ := h.outside service hk
    rw [(hold hlt).2]
    exact ⟨(hold hlt).1, hwork⟩
  · obtain ⟨hlt, howner⟩ := h.joiners other service hk
    rw [(hold hlt).2]
    exact ⟨(hold hlt).1, howner⟩

theorem post (h : d.Orderly runs) {run : RunId} (hrun : run < runs) (mail : Mail) : (d.post run mail).Orderly runs := by
  have hpushed : (d.modifyBox run fun b =>
      { b with mail := b.mail.push mail, unfinished := b.unfinished + 1, waiting := false }).Orderly runs :=
    h.modifyBox run fun _ hmem => .inl hmem
  simp only [Desk.post]
  split
  · exact h
  · split
    · exact hpushed.enqueue hrun
    · exact hpushed

theorem deliver (h : d.Orderly runs) (event : Event) {listener : Listener}
    (hl : ∀ run body scope, listener = .handler run body scope → run < runs) :
    (Desk.deliver event d listener).Orderly runs := by
  cases listener with
  | handler run body scope => exact h.post (hl run body scope rfl) _
  | recorder => exact ⟨h.boxes, h.owners, h.ready, h.listeners, h.outside, h.joiners⟩
  | printer lead =>
    simp only [Desk.deliver]
    split
    · exact ⟨h.boxes, h.owners, h.ready, h.listeners, h.outside, h.joiners⟩
    · exact h

theorem publish (h : d.Orderly runs) (event : Event) : (d.publish event).Orderly runs := by
  have hfold (ls : List Listener) (hls : ∀ l ∈ ls, ∀ run body scope, l = .handler run body scope → run < runs) (d : Desk)
      (h : d.Orderly runs) : (ls.foldl (Desk.deliver event) d).Orderly runs := by
    induction ls generalizing d with
    | nil => exact h
    | cons l ls ih =>
      exact ih (fun k hk => hls k (List.mem_cons_of_mem l hk)) _ (h.deliver event (hls l List.mem_cons_self))
  refine hfold _ (fun l hl => ?_) _ ⟨h.boxes, h.owners, h.ready, h.listeners, h.outside, h.joiners⟩
  obtain ⟨s, hs, rfl⟩ := List.mem_map.1 hl
  exact h.listeners s (List.mem_filter.1 hs).1

theorem handled (h : d.Orderly runs) (run : RunId) : (d.handled run).Orderly runs := by
  simp only [Desk.handled]
  split
  · refine wakeAll ?_ _
    exact h.modifyBox run (by simp)
  · exact h.modifyBox run fun _ hmem => .inl hmem

theorem unsubscribeAll (h : d.Orderly runs) (tokens : List Nat) :
    Orderly runs { d with host := { d.host with bus := d.host.bus.unsubscribeAll tokens } } := by
  have hfold (bus : Bus Listener) : ∀ s ∈ (bus.unsubscribeAll tokens).subscriptions, s ∈ bus.subscriptions := by
    induction tokens generalizing bus with
    | nil => exact fun _ hs => hs
    | cons token tokens ih => exact fun s hs => (List.mem_filter.1 (ih (bus.unsubscribe token) s hs)).1
  exact ⟨h.boxes, h.owners, h.ready, fun s hs => h.listeners s (hfold _ s hs), h.outside, h.joiners⟩

theorem subscribe (h : d.Orderly runs) (pattern : String) {listener : Listener}
    (hl : ∀ run body scope, listener = .handler run body scope → run < runs) :
    Orderly runs { d with host := { d.host with bus := (d.host.bus.subscribe pattern listener).2 } } := by
  refine ⟨h.boxes, h.owners, h.ready, fun s hs => ?_, h.outside, h.joiners⟩
  simp only [Bus.subscribe, List.mem_append, List.mem_singleton] at hs
  rcases hs with hs | rfl
  · exact h.listeners s hs
  · exact hl

theorem host (h : d.Orderly runs) {host : Host} (hbus : host.bus = d.host.bus) : Orderly runs { d with host } := by
  refine ⟨h.boxes, h.owners, h.ready, fun s hs => ?_, h.outside, h.joiners⟩
  exact h.listeners s (hbus ▸ hs)

theorem op {r : Run} (h : d.Orderly runs) (hid : r.id < runs) (hop : Op r d d') : d'.Orderly runs := by
  cases hop with
  | host host hbus hpublished => exact h.host hbus
  | publish event => exact h.publish event
  | subscribe pattern body scope =>
    refine h.subscribe pattern fun run body' scope' hl => ?_
    cases hl
    exact hid
  | revoke tokens => exact h.unsubscribeAll tokens
  | enqueue entry hentry =>
    refine h.enqueue ?_
    cases entry with
    | thread run side =>
      obtain rfl : run = r.id := of_decide_eq_true hentry
      exact hid
    | gathered run =>
      obtain rfl : run = r.id := of_decide_eq_true hentry
      exact hid
    | _ => cases hentry
  | open_ side work => exact h.open_ hid side work
  | wake => exact h.wakeAll _
  | interrupt ids => exact h.interruptAll ids
  | handled => exact h.handled r.id
  | box f hf => exact h.modifyBox r.id fun _ hmem => .inl (hf _ ▸ hmem)

theorem ops {r : Run} (h : d.Orderly runs) (hid : r.id < runs) (hops : Relation.ReflTransGen (Op r) d d') :
    d'.Orderly runs := by
  induction hops with
  | refl => exact h
  | tail _ hop ih => exact ih.op hid hop

/-- One more service may wait for a word from outside. -/
theorem outside_cons (h : d.Orderly runs) {service : ServiceId} (hsize : service < d.services.size)
    (hwork : (d.service service).work ≠ .join) (other : ServiceId) (hold : other ≠ service → other ∈ d.outside) :
    other < d.services.size ∧ (d.service other).work ≠ .join := by
  by_cases hnew : other = service
  · rw [hnew]
    exact ⟨hsize, hwork⟩
  · exact h.outside other (hold hnew)

theorem outsiders (h : d.Orderly runs) {host : Host} {dialogs : List ServiceId} {timers : List (Time × ServiceId)}
    {typed : List (ServiceId × Except Fault Plain)} (hbus : host.bus = d.host.bus)
    (houtside : ∀ service ∈ dialogs ++ timers.map (·.2) ++ typed.map (·.1),
      service < d.services.size ∧ (d.service service).work ≠ .join) :
    Orderly runs { d with host, dialogs, timers, typed } :=
  ⟨h.boxes, h.owners, h.ready, (h.host hbus).listeners, houtside, h.joiners⟩

theorem complete (h : d.Orderly runs) {service : ServiceId} (hsize : service < d.services.size) (result : ServiceResult) :
    (d.complete service result).Orderly runs :=
  (h.setStage service (.done result)).enqueue (h.owners service hsize)

end Orderly

end Desk

namespace Run

/-- Who waits for idleness waits for nothing else. -/
def Idlers (d : Desk) (r : Run) : Prop :=
  ∀ service ∈ r.governor.waiters, service < d.services.size ∧ (d.service service).work = .idle

variable {runs : Nat} {r r' : Run} {d d' : Desk} {service : ServiceId}

theorem Idlers.onward (h : r.Idlers d) (hd : d.Onward d')
    (hwaiters : ∀ service ∈ r'.governor.waiters, service ∈ r.governor.waiters) : r'.Idlers d' := by
  intro service hmem
  obtain ⟨hsize, hwork⟩ := h service (hwaiters service hmem)
  exact ⟨Nat.lt_of_lt_of_le hsize hd.size, (hd.owner service hsize).2.2.trans hwork⟩

theorem answerCommand_orderly (h : d.Orderly runs) (hsize : service < d.services.size) (answer : CommandAnswer)
    (args : Plain) : (r.answerCommand d service answer args).2.Orderly runs := by
  unfold answerCommand
  split
  · split <;> exact h.complete hsize _
  · exact h.complete hsize _

theorem tickCommand_orderly (h : d.Orderly runs) (hsize : service < d.services.size) (ticks : Nat)
    (answer : CommandAnswer) (args : Plain) : (r.tickCommand d service ticks answer args).2.Orderly runs := by
  cases ticks with
  | zero => exact answerCommand_orderly h hsize answer args
  | succ left =>
    refine (h.setStage service _).enqueue ?_
    exact Nat.lt_of_lt_of_eq hsize Array.size_modify.symm

theorem beginDialog_orderly (h : d.Orderly runs) (hsize : service < d.services.size)
    (hwork : (d.service service).work ≠ .join) (kind : DialogKind) (message default : String) :
    (d.beginDialog service kind message default).Orderly runs := by
  have hrecorded : (d.recordDialog kind message).Orderly runs := h.host rfl
  have hone := h.outside_cons hsize hwork
  unfold Desk.beginDialog
  split
  · exact hrecorded.complete hsize _
  · exact h.complete hsize _
  · dsimp only
    split
    · exact hrecorded.complete hsize _
    · refine Desk.Orderly.setStage (hrecorded.outsiders rfl fun other hother => ?_) service .parked
      refine hone other fun hnew => ?_
      simpa [Desk.outside, Desk.recordDialog, hnew] using hother
  · refine Desk.Orderly.setStage (Desk.Orderly.outsiders h ?_ fun other hother => ?_) service .parked
    · rfl
    · refine hone other fun hnew => ?_
      simpa [Desk.outside, hnew] using hother

theorem beginSleep_orderly (h : d.Orderly runs) (hsize : service < d.services.size)
    (hwork : (d.service service).work ≠ .join) (ms : Time) : (d.beginSleep service ms).Orderly runs := by
  have hslept {d : Desk} (h : d.Orderly runs) (hsize : service < d.services.size) :
      ((d.setStage service .slept).enqueue (.service service)).Orderly runs :=
    (h.setStage service .slept).enqueue (Nat.lt_of_lt_of_eq hsize Array.size_modify.symm)
  simp only [Desk.beginSleep]
  split
  · exact hslept (h.host rfl) hsize
  · split
    · refine Desk.Orderly.setStage (h.outsiders rfl fun other hother => ?_) service .parked
      refine h.outside_cons hsize hwork other fun hnew => ?_
      simpa [Desk.outside, hnew] using hother
    · exact hslept h hsize

theorem beginService_orderly (h : d.Orderly runs) (hsize : service < d.services.size)
    (howner : (d.service service).run = r.id) {work : Work} (hwork : (d.service service).work = work) :
    (r.beginService d service work).2.Orderly runs := by
  have hcommand (name : String) (args : Plain) : (r.beginCommand d service name args).2.Orderly runs := by
    have hrecorded : (d.recordCommand name args).Orderly runs := h.host rfl
    exact tickCommand_orderly hrecorded hsize _ _ _
  cases work with
  | dialog kind message default => exact beginDialog_orderly h hsize (by rw [hwork]; nofun) kind message default
  | command name args => exact hcommand name args
  | request q => exact hcommand _ _
  | sleep ms => exact beginSleep_orderly h hsize (by rw [hwork]; nofun) ms
  | idle =>
    simp only [beginService]
    split
    · exact h.complete hsize _
    · exact h.setStage service .parked
  | join =>
    simp only [beginService]
    split
    · exact h.complete hsize _
    · refine Desk.Orderly.setStage (h.modifyBox r.id fun other hother => ?_) service .parked
      rcases List.mem_append.1 hother with hother | hother
      · exact .inl hother
      · rw [List.mem_singleton.1 hother]
        exact .inr ⟨hsize, howner⟩

theorem stepService_orderly (h : d.Orderly runs) (hsize : service < d.services.size)
    (howner : (d.service service).run = r.id) : (r.stepService d service).2.Orderly runs := by
  simp only [stepService]
  split
  · exact h
  · exact h.complete hsize _
  · exact beginService_orderly h hsize howner rfl
  · exact tickCommand_orderly h hsize _ _ _
  · exact h.complete hsize _
  · exact h.complete hsize _
  · exact h

theorem stepService_idlers (h : r.Idlers d) (hsize : service < d.services.size) :
    (r.stepService d service).1.Idlers (r.stepService d service).2 := by
  obtain ⟨waiters, hgovernor, hwaiters⟩ := r.stepService_governor d service
  intro other hmem
  rw [hgovernor] at hmem
  obtain ⟨hlt, hwork⟩ : other < d.services.size ∧ (d.service other).work = .idle := by
    rcases hwaiters other hmem with hold | ⟨rfl, hwork⟩
    · exact h other hold
    · exact ⟨hsize, hwork⟩
  have hserves := r.stepService_serves d service
  refine ⟨Nat.lt_of_lt_of_eq hlt hserves.size.symm, ?_⟩
  exact (r.stepService_later d service hlt).work.trans hwork

end Run

structure World.Orderly (w : World) : Prop where
  desk : w.desk.Orderly w.runs.size
  idlers : ∀ id, id < w.runs.size → (w.run id).Idlers w.desk

namespace World

variable {w w' : World} {id : RunId}

theorem Orderly.withDesk (h : w.Orderly) (hruns : w'.runs = w.runs) (hdesk : w'.desk.Orderly w.runs.size)
    (honward : w.desk.Onward w'.desk) : w'.Orderly := by
  refine ⟨hruns ▸ hdesk, fun id hid => ?_⟩
  rw [show w'.run id = w.run id by rw [run, run, hruns]]
  exact (h.idlers id (hruns ▸ hid)).onward honward fun _ hmem => hmem

/-- The mailbox of a new run is as empty as one that is not there. -/
theorem box_addRun (w : World) (r : Run) (run : RunId) : (w.addRun r).desk.box run = w.desk.box run := by
  simp only [addRun, Desk.box, Array.getD_eq_getD_getElem?, Array.getElem?_push]
  split
  · rename_i hnew
    rw [hnew, Array.getElem?_eq_none (Nat.le_refl _)]
    rfl
  · rfl

theorem box_launch (w : World) (name : String) (program : Program) (limits : Limits) (startedAt : Time) (heap : Heap)
    (scopes : Scopes) (run : RunId) :
    (w.launch name program limits startedAt heap scopes).desk.box run = w.desk.box run :=
  w.box_addRun { id := w.runs.size, name, program := some program, limits, startedAt, holds := w.holds, heap, scopes } run

theorem Orderly.addRun (h : w.Orderly) {r : Run} (hgovernor : r.governor = {}) : (w.addRun r).Orderly := by
  have hsize := w.size_addRun r
  have hboxes : (w.addRun r).desk.boxes.size = (w.addRun r).runs.size := by
    rw [hsize, ← h.desk.boxes]
    exact Array.size_push _
  refine ⟨⟨hboxes, fun service hk => ?_, fun entry hentry => ?_, fun s hs run body scope hl => ?_, h.desk.outside,
    fun run service hk => ?_⟩, fun id hid => ?_⟩
  · rw [hsize]
    exact Nat.lt_succ_of_lt (h.desk.owners service hk)
  · have hknows := h.desk.ready entry hentry
    rw [hsize]
    cases entry with
    | thread | gathered => exact Nat.lt_succ_of_lt hknows
    | _ => exact hknows
  · rw [hsize]
    exact Nat.lt_succ_of_lt (h.desk.listeners s hs run body scope hl)
  · rw [box_addRun] at hk
    exact h.desk.joiners run service hk
  · by_cases hold : id < w.runs.size
    · rw [run_addRun w r hold]
      exact h.idlers id hold
    · obtain rfl : id = w.runs.size :=
        Nat.le_antisymm (Nat.le_of_lt_succ (Nat.lt_of_lt_of_eq hid hsize)) (Nat.le_of_not_lt hold)
      have hrun : (w.addRun r).run w.runs.size = r := by
        simp only [World.addRun, run, Array.getD_eq_getD_getElem?, Array.getElem?_push, if_pos]
        rfl
      rw [hrun]
      intro service hmem
      rw [hgovernor] at hmem
      cases hmem

theorem Orderly.publish (h : w.Orderly) (event : Event) : (w.publish event).Orderly :=
  h.withDesk rfl (h.desk.publish event) (w.desk.publish_onward event)

theorem Orderly.ready (h : w.Orderly) {entry : Ready} (hentry : w.desk.Knows w.runs.size entry) (running : Dict RunId) :
    Orderly { w with desk := w.desk.enqueue entry, running } :=
  h.withDesk rfl (h.desk.enqueue hentry) (w.desk.enqueue_onward entry)

theorem Orderly.start (h : w.Orderly) (l : Launch) : (w.start l).2.Orderly := by
  obtain ⟨hruns, hdesk⟩ := w.nameFor_same l.name
  have hnamed : (w.nameFor l.name).2.Orderly := h.withDesk hruns (hdesk ▸ h.desk) (hdesk ▸ .refl _)
  simp only [World.start]
  generalize w.nameFor l.name = named at hruns hnamed ⊢
  split
  · split
    · exact ((hnamed.publish _).publish _).addRun rfl
    · exact (hnamed.publish _).addRun rfl
  · split
    · exact hnamed.publish _
    · rename_i r hdeclared
      refine Orderly.ready (Orderly.addRun (hnamed.publish _) ?_) ?_ _
      · exact (declareAll_governor hdeclared).trans rfl
      · rw [size_addRun]
        exact Nat.lt_succ_self _

theorem Orderly.launch (h : w.Orderly) (name : String) (program : Program) (limits : Limits) (startedAt : Time)
    (heap : Heap) (scopes : Scopes) : (w.launch name program limits startedAt heap scopes).Orderly := by
  refine (h.addRun ?_).ready ?_ _
  · rfl
  · rw [size_addRun]
    exact Nat.lt_succ_self _

theorem Orderly.cancel (h : w.Orderly) (id : RunId) : (w.cancel id).Orderly := by
  have honward := (w.later_cancel id).desk
  have hsize := w.size_cancel id
  refine ⟨?_, fun other hother => ?_⟩
  · rw [hsize]
    simp only [World.cancel]
    split
    · exact h.desk
    · exact (h.desk.interruptAll _).unsubscribeAll _
  · rw [hsize] at hother
    refine (h.idlers other hother).onward honward fun service hmem => ?_
    rcases w.run_cancel id hother with hrun | ⟨hrun, -⟩
    · rwa [hrun] at hmem
    · rwa [hrun] at hmem

theorem Orderly.answer (h : w.Orderly) (p : Plain) : Orderly { w with desk := w.desk.answer p } := by
  refine h.withDesk rfl ?_ (w.desk.answer_onward p)
  have hfewer {dialogs : List ServiceId} (hsub : dialogs ⊆ w.desk.dialogs) :
      Desk.Orderly w.runs.size { w.desk with dialogs } := by
    refine h.desk.outsiders rfl fun service hmem => h.desk.outside service ?_
    simp only [Desk.outside, List.mem_append] at hmem ⊢
    exact hmem.imp_left fun hmem => hmem.imp_left fun hmem => hsub hmem
  simp only [Desk.answer]
  split
  · exact hfewer nofun
  · rename_i id rest hdrop
    refine (hfewer fun service hmem => ?_).wake id _
    have hdropped := List.mem_cons_of_mem id hmem
    rw [← hdrop] at hdropped
    exact (List.dropWhile_suffix _).subset hdropped

theorem Orderly.driven (h : w.Orderly) (hdriven : w.Driven w') : w'.Orderly := by
  have hhost {host : Host} : w.desk.Onward { w.desk with host } := .of_services rfl (List.prefix_refl _)
  cases hdriven with
  | start l => exact h.start l
  | launch name hparse limits startedAt heap scopes => exact h.launch name _ limits startedAt heap scopes
  | publish event => exact h.publish event
  | cancel id => exact h.cancel id
  | answer p => exact h.answer p
  | wait awaited => exact h.withDesk rfl h.desk (.refl _)
  | turn => exact h.withDesk rfl (h.desk.enqueue trivial) (w.desk.enqueue_onward _)
  | configure config => exact h.withDesk rfl h.desk (.refl _)
  | listen pattern hl =>
    exact h.withDesk rfl (h.desk.subscribe pattern fun run body scope heq => absurd heq (hl run body scope)) hhost
  | unlisten token => exact h.withDesk rfl (h.desk.unsubscribeAll [token]) hhost
  | host hbus => exact h.withDesk rfl (h.desk.host hbus) hhost

theorem Orderly.waited (h : w.Orderly) {desk : Desk} (hdesk : w.desk.waitForWorld? = some desk) :
    Orderly { w with desk } := by
  refine h.withDesk rfl ?_ (Desk.waitForWorld_onward hdesk)
  unfold Desk.waitForWorld? at hdesk
  split at hdesk
  · rename_i service r rest htyped
    cases hdesk
    refine Desk.Orderly.wake (h.desk.outsiders rfl fun other hmem => h.desk.outside other ?_) service r
    simp only [Desk.outside, htyped, List.mem_append, List.map_cons] at hmem ⊢
    exact hmem.imp_right (List.mem_cons_of_mem service)
  · rename_i htyped
    split at hdesk
    · cases hdesk
    · rename_i due service htimer
      cases hdesk
      refine Desk.Orderly.wake (Desk.Orderly.outsiders h.desk ?_ fun other hmem => h.desk.outside other ?_) service _
      · rfl
      · simp only [Desk.outside, List.mem_append] at hmem ⊢
        refine hmem.imp_left fun hmem => hmem.imp_right fun hmem => ?_
        obtain ⟨timer, htimer, heq⟩ := List.mem_map.1 hmem
        exact List.mem_map.2 ⟨timer, (List.mem_filter.1 htimer).1, heq⟩

theorem Orderly.dequeued (h : w.Orderly) {ready : Queue Ready} (hready : ready.toList ⊆ w.desk.ready.toList) :
    (w.dequeued ready).Orderly :=
  ⟨h.desk.fewer hready, h.idlers⟩

theorem Orderly.concluded (h : w.Orderly) (id : RunId) : (w.concluded id).Orderly := by
  have hforgotten : (w.desk.enqueue (.forget id)).Orderly w.runs.size := h.desk.enqueue trivial
  unfold World.concluded
  dsimp only
  split
  · refine h.withDesk rfl (hforgotten.enqueue trivial) ?_
    exact (w.desk.enqueue_onward _).trans (Desk.enqueue_onward _ _)
  · exact h.withDesk rfl hforgotten (w.desk.enqueue_onward _)

theorem Orderly.advance (h : w.Orderly) (hnamed : ∀ id, id < w.runs.size → (w.run id).id = id) {entry : Ready}
    (hentry : w.desk.Knows w.runs.size entry) (hthread : ∀ id side, entry ≠ .thread id side) :
    (w.advance entry).Orderly := by
  cases entry with
  | thread id side => exact absurd rfl (hthread id side)
  | gathered id => exact h.withDesk rfl (h.desk.enqueue hentry) (w.desk.enqueue_onward _)
  | forget id => exact h.withDesk rfl h.desk (.refl _)
  | controller => exact h
  | service service =>
    have howner := h.desk.owners service hentry
    have hdesk : (w.advance (.service service)).desk =
        ((w.run (w.desk.service service).run).stepService w.desk service).2 := rfl
    refine ⟨?_, fun id hid => ?_⟩
    · rw [size_advance w hthread, hdesk]
      exact Run.stepService_orderly h.desk hentry (hnamed _ howner).symm
    · rw [size_advance w hthread] at hid
      rw [run_advance_service w service id hid, hdesk]
      split
      · rename_i hself
        rw [← hself]
        exact Run.stepService_idlers (h.idlers id hid) hentry
      · have hserves := (w.run (w.desk.service service).run).stepService_serves w.desk service
        intro other hmem
        obtain ⟨hlt, hwork⟩ := h.idlers id hid other hmem
        exact ⟨Nat.lt_of_lt_of_eq hlt hserves.size.symm, (Run.stepService_later _ _ service hlt).work.trans hwork⟩

end World

namespace Moment

variable {m n : Moment} {id other : RunId} {side : Side}

def active? : Moment → Option RunId
  | resting _ => none
  | within _ id _ _ => some id

structure Orderly (m : Moment) : Prop where
  desk : m.desk.Orderly m.size
  idlers : ∀ id, id < m.size → (m.run id).Idlers m.desk
  active : ∀ id, m.active? = some id → id < m.size

theorem orderly_resting {w : World} (h : w.Orderly) : (resting w).Orderly := ⟨h.desk, h.idlers, nofun⟩

theorem Orderly.acting (h : m.Orderly) (hacts : Acts id side m n) : id < m.size := by
  cases hacts with
  | @first w ready hpop =>
    have hready := Queue.toList_of_pop? _ _ _ hpop
    have hmem : .thread id side ∈ w.desk.ready.toList := hready ▸ List.mem_cons_self
    exact h.desk.ready _ hmem
  | step _ => exact h.active id rfl

theorem Acts.frame (hacts : Acts id side m n) : n.size = m.size ∧ n.active? = some id ∧
    ∀ other, other ≠ id → n.run other = m.run other := by
  cases hacts with
  | @first w ready hpop =>
    refine ⟨World.size_setRun _ _ _, rfl, fun other hother => ?_⟩
    simp only [Moment.run, if_neg hother]
    exact World.run_setRun_ne _ hother _
  | step _ =>
    refine ⟨rfl, rfl, fun other hother => ?_⟩
    simp only [Moment.run, if_neg hother]

theorem Acts.deals (hacts : Acts id side m n) (hm : Possible m) (hid : id < m.size) :
    ∃ ready s, ready.toList ⊆ m.desk.ready.toList ∧ n.At id side s ∧
      s.Deals (m.run id) { m.desk with ready } (m.thread id side) := by
  have hfits := hm.sound.thread id side
  have hsided := hm.attended.sided hid side
  obtain ⟨-, ready, hready, hat | ⟨rfl, hrest, hat⟩⟩ := hacts.stride hm.sound
  · exact ⟨ready, _, hready, hat, Run.step_deals hfits hsided⟩
  · exact ⟨ready, _, hready, hat, Run.interruptWorker_deals (hsided.rested hfits hrest)⟩

theorem Orderly.acts (h : m.Orderly) (hm : Possible m) (hacts : Acts id side m n) : n.Orderly := by
  have hid := h.acting hacts
  have hname := hm.attended.named hid
  obtain ⟨hsize, hactive, hothers⟩ := hacts.frame
  obtain ⟨ready, s, hready, hat, hdeals⟩ := hacts.deals hm hid
  have hfewer : Desk.Orderly m.size { m.desk with ready } := h.desk.fewer hready
  have honward : Desk.Onward { m.desk with ready } s.desk := Desk.ops_onward hdeals.desk
  refine ⟨?_, fun other hother => ?_, fun active hsome => ?_⟩
  · rw [hsize, hat.desk]
    exact hfewer.ops (Nat.lt_of_le_of_lt (Nat.le_of_eq hname) hid) hdeals.desk
  · rw [hsize] at hother
    have hidlers : (m.run other).Idlers { m.desk with ready } := h.idlers other hother
    rw [hat.desk]
    by_cases hself : other = id
    · subst hself
      rw [hat.run]
      exact hidlers.onward honward hdeals.waiters
    · rw [hothers other hself]
      exact hidlers.onward honward fun _ hmem => hmem
  · rw [hactive] at hsome
    cases hsome
    exact hsize ▸ hid

/-- A slice ends: its thread may go on later, and its run may be over. -/
theorem Orderly.rest {w : World} {s : Step} (h : (within w id side s).Orderly) (hname : s.run.id = id) :
    (resting (w.rest id side s)).Orderly := by
  have hid : id < w.runs.size := h.active id rfl
  have hdesk : s.desk.Orderly w.runs.size := h.desk
  have hstored : (s.store side).2.Orderly w.runs.size := by
    unfold Step.store
    dsimp only
    split
    · exact hdesk.enqueue (Nat.lt_of_le_of_lt (Nat.le_of_eq hname) hid)
    · exact hdesk
  have hgovernor : (s.store side).1.governor = s.run.governor := by cases side <;> rfl
  have hw : World.Orderly ({ w with desk := (s.store side).2 }.setRun id (s.store side).1) := by
    refine ⟨?_, fun other hother => ?_⟩
    · rw [World.size_setRun]
      exact hstored
    · rw [World.size_setRun] at hother
      have hidlers := h.idlers other hother
      have honward : s.desk.Onward (s.store side).2 := by
        unfold Step.store
        dsimp only
        split
        · exact s.desk.enqueue_onward _
        · exact .refl _
      by_cases hself : other = id
      · subst hself
        rw [World.run_setRun_self { w with desk := (s.store side).2 } hother]
        simp only [Moment.run, if_pos] at hidlers
        exact hidlers.onward honward fun service hmem => by rwa [hgovernor] at hmem
      · rw [World.run_setRun_ne { w with desk := (s.store side).2 } hself]
        simp only [Moment.run, if_neg hself] at hidlers
        exact hidlers.onward honward fun _ hmem => hmem
  refine orderly_resting ?_
  unfold World.rest
  dsimp only
  split
  · exact hw.concluded id
  · exact hw

theorem Orderly.move (h : m.Orderly) (hm : Possible m) (hn : Move m n) : n.Orderly := by
  cases hn with
  | reorder hperm =>
    exact orderly_resting (World.Orderly.dequeued ⟨h.desk, h.idlers⟩ hperm.symm.subset)
  | next hn =>
    cases hn with
    | driven hdriven => exact orderly_resting (World.Orderly.driven ⟨h.desk, h.idlers⟩ hdriven)
    | waited _ hdesk => exact orderly_resting (World.Orderly.waited ⟨h.desk, h.idlers⟩ hdesk)
    | @entry w entry ready hpop hentry =>
      have hready := Queue.toList_of_pop? _ _ _ hpop
      have hsub : ready.toList ⊆ w.desk.ready.toList := hready ▸ List.subset_cons_self _ _
      have hw : w.Orderly := ⟨h.desk, h.idlers⟩
      refine orderly_resting ((hw.dequeued hsub).advance (fun id hid => hm.attended.named hid) ?_ hentry)
      have hknows : w.desk.Knows w.runs.size entry := h.desk.ready entry (hready ▸ List.mem_cons_self)
      cases entry <;> exact hknows
    | thread hpop => exact h.acts hm (.first hpop)
    | step hpace => exact h.acts hm (.step hpace)
    | @rest w id side s hpace =>
      have hname : (within w id side s).run id = s.run := if_pos rfl
      exact h.rest (hname ▸ hm.attended.named (h.active id rfl))

theorem Possible.orderly (hm : Possible m) : m.Orderly := by
  induction hm with
  | fresh host config holds hbus =>
    refine orderly_resting ⟨⟨rfl, nofun, nofun, fun s hs run body scope hl => ?_, nofun, fun run service hmem => ?_⟩, nofun⟩
    · exact absurd hl (hbus s hs run body scope)
    · simp [Desk.box] at hmem
  | move hm hn ih => exact ih.move hm hn

end Moment

end DeskScript
