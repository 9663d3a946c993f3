import DeskScript.Proofs.Machine.Reporting
import DeskScript.Proofs.Machine.Withdrawal

set_option autoImplicit false

/-!
# What summons a main thread

A main thread that rests waits for one thing: its turn after yielding, one service, or the end of its worker. Here is
counted how often it is summoned, and what one step of a thread does to that number: a step of the main thread uses up the
turn it was summoned for, and asks for one more at most. Main statement: `Run.step_spends`.
-/

namespace DeskScript

def Ready.summons (run : RunId) : Ready → Bool
  | .thread other .main | .gathered other => other = run
  | _ => false

def Stage.isDone : Stage → Bool
  | .done _ => true
  | _ => false

def Service.summons (run : RunId) (s : Service) : Bool := s.run = run && s.side = .main && !s.stage.isDone

def Ready.forgets (run : RunId) : Ready → Bool
  | .forget other => other = run
  | _ => false

namespace Desk

variable {d d' d'' : Desk} {run : RunId}

def summons (d : Desk) (run : RunId) : Nat :=
  d.ready.toList.countP (·.summons run) + d.services.toList.countP (·.summons run)

def farewells (d : Desk) (run : RunId) : Nat := d.ready.toList.countP (·.forgets run)

structure Even (d d' : Desk) : Prop where
  summons : ∀ run, d'.summons run = d.summons run
  farewells : ∀ run, d'.farewells run = d.farewells run

theorem Even.refl (d : Desk) : d.Even d := ⟨fun _ => rfl, fun _ => rfl⟩

theorem Even.trans (h : d.Even d') (h' : d'.Even d'') : d.Even d'' :=
  ⟨fun run => (h'.summons run).trans (h.summons run), fun run => (h'.farewells run).trans (h.farewells run)⟩

theorem Even.of_eq (hready : d'.ready = d.ready) (hservices : d'.services = d.services) : d.Even d' := by
  refine ⟨fun run => ?_, fun run => ?_⟩
  · rw [Desk.summons, Desk.summons, hready, hservices]
  · rw [Desk.farewells, Desk.farewells, hready]

theorem Even.after (h : d'.Even d'') (hready : d'.ready = d.ready) (hservices : d'.services = d.services) : d.Even d'' :=
  (Even.of_eq hready hservices).trans h

theorem summons_enqueue (d : Desk) (entry : Ready) (run : RunId) :
    (d.enqueue entry).summons run = d.summons run + if entry.summons run = true then 1 else 0 := by
  rw [summons, enqueue_ready, List.countP_append, List.countP_singleton, summons, Nat.add_right_comm]
  rfl

theorem farewells_enqueue (d : Desk) (entry : Ready) (run : RunId) :
    (d.enqueue entry).farewells run = d.farewells run + if entry.forgets run = true then 1 else 0 := by
  rw [farewells, enqueue_ready, List.countP_append, List.countP_singleton]
  rfl

theorem even_enqueue (d : Desk) {entry : Ready} (hsummons : ∀ run, entry.summons run = false)
    (hforgets : ∀ run, entry.forgets run = false) : d.Even (d.enqueue entry) := by
  refine ⟨fun run => ?_, fun run => ?_⟩
  · rw [summons_enqueue, hsummons]
    rfl
  · rw [farewells_enqueue, hforgets]
    rfl

/-- A service that changes counts as it does then, and no longer as it did. -/
theorem countP_modify (p : Service → Bool) (services : Array Service) {id : ServiceId} (h : id < services.size)
    (f : Service → Service) :
    (services.modify id f).toList.countP p + (if p services[id] = true then 1 else 0) =
      services.toList.countP p + if p (f services[id]) = true then 1 else 0 := by
  have hid : id < services.toList.length := h
  have hsplit : services.toList.countP p =
      (services.toList.take id).countP p + (services.toList[id] :: services.toList.drop (id + 1)).countP p := by
    rw [← List.countP_append, List.getElem_cons_drop, List.take_append_drop]
  rw [Array.toList_modify, List.modify_eq_take_cons_drop hid, List.countP_append, hsplit, List.countP_cons,
    List.countP_cons, Array.getElem_toList]
  omega

theorem service_eq (d : Desk) {id : ServiceId} (h : id < d.services.size) : d.service id = d.services[id] := by
  simp [service, Array.getD_eq_getD_getElem?, h]

theorem even_modify (d : Desk) (id : ServiceId) (f : Service → Service)
    (h : ∀ run, (f (d.service id)).summons run = (d.service id).summons run) :
    d.Even { d with services := d.services.modify id f } := by
  refine ⟨fun run => ?_, fun _ => rfl⟩
  apply congrArg (d.ready.toList.countP (·.summons run) + ·)
  change (d.services.modify id f).toList.countP _ = _
  by_cases hid : id < d.services.size
  · have hcount := countP_modify (·.summons run) d.services hid f
    have hsame := h run
    rw [d.service_eq hid] at hsame
    rw [hsame] at hcount
    exact Nat.add_right_cancel hcount
  · rw [Array.toList_modify, List.modify_eq_self (Nat.le_of_not_lt hid)]

theorem even_setStage (d : Desk) (id : ServiceId) {stage : Stage} (hbefore : (d.service id).stage.isDone = false)
    (hafter : stage.isDone = false) : d.Even (d.setStage id stage) := by
  refine d.even_modify id _ fun run => ?_
  simp only [Service.summons, hbefore, hafter]

theorem even_modifyBox (d : Desk) (run : RunId) (f : Mailbox → Mailbox) : d.Even (d.modifyBox run f) := .of_eq rfl rfl

theorem even_service (d : Desk) (service : ServiceId) : d.Even (d.enqueue (.service service)) :=
  d.even_enqueue (fun _ => rfl) fun _ => rfl

theorem even_worker (d : Desk) (run : RunId) : d.Even (d.enqueue (.thread run .worker)) :=
  d.even_enqueue (fun _ => rfl) fun _ => rfl

theorem even_wake (d : Desk) (id : ServiceId) (r : Except Fault Plain) : d.Even (d.wake id r) := by
  unfold wake
  split
  · rename_i hparked
    exact (d.even_setStage id (by rw [hparked]; rfl) rfl).trans (even_service _ id)
  · exact .refl d

theorem even_interrupt (d : Desk) (id : ServiceId) : d.Even (d.interrupt id) := by
  unfold interrupt
  split
  · exact .refl d
  · rename_i hparked
    refine (d.even_modify id (fun s => { s with cancelled := true, stage := .woken (.ok .null) }) fun run => ?_).trans
      (even_service _ id)
    simp only [Service.summons, hparked, Stage.isDone]
  · exact d.even_modify id (fun s => { s with cancelled := true }) fun run => rfl

theorem even_foldl {α : Type} {f : Desk → α → Desk} (hf : ∀ (d : Desk) (a : α), d.Even (f d a)) (items : List α) (d : Desk) :
    d.Even (items.foldl f d) := by
  induction items generalizing d with
  | nil => exact .refl d
  | cons a items ih => exact (hf d a).trans (ih _)

theorem even_wakeAll (d : Desk) (ids : List ServiceId) : d.Even (d.wakeAll ids) :=
  even_foldl (fun d id => d.even_wake id _) ids d

theorem even_interruptAll (d : Desk) (ids : List ServiceId) : d.Even (d.interruptAll ids) :=
  even_foldl even_interrupt ids d

theorem even_post (d : Desk) (run : RunId) (mail : Mail) : d.Even (d.post run mail) := by
  unfold post
  dsimp only
  split
  · exact .refl d
  · split
    · exact (d.even_modifyBox run _).trans (even_worker _ run)
    · exact d.even_modifyBox run _

theorem even_publish (d : Desk) (event : Event) : d.Even (d.publish event) := by
  have hdeliver (d : Desk) (listener : Listener) : d.Even (deliver event d listener) := by
    cases listener with
    | handler run body scope => exact d.even_post run _
    | recorder => exact .of_eq rfl rfl
    | printer lead =>
      simp only [deliver]
      split
      · exact .of_eq rfl rfl
      · exact .refl d
  exact Even.after (even_foldl hdeliver _ _) rfl rfl

theorem even_handled (d : Desk) (run : RunId) : d.Even (d.handled run) := by
  unfold handled
  dsimp only
  split
  · exact (d.even_modifyBox run _).trans (even_wakeAll _ _)
  · exact d.even_modifyBox run _

structure Rings (run : RunId) (d d' : Desk) : Prop where
  self : d'.summons run = d.summons run + 1
  others : ∀ other, other ≠ run → d'.summons other = d.summons other
  farewells : ∀ other, d'.farewells other = d.farewells other

theorem Rings.after (h : d'.Rings run d'') (heven : d.Even d') : d.Rings run d'' := by
  refine ⟨?_, fun other hother => ?_, fun other => (h.farewells other).trans (heven.farewells other)⟩
  · rw [h.self, heven.summons]
  · rw [h.others other hother, heven.summons]

theorem Rings.before (h : d.Rings run d') (heven : d'.Even d'') : d.Rings run d'' := by
  refine ⟨?_, fun other hother => ?_, fun other => (heven.farewells other).trans (h.farewells other)⟩
  · rw [heven.summons, h.self]
  · rw [heven.summons, h.others other hother]

theorem rings_enqueue (d : Desk) {entry : Ready} (hsummons : ∀ other, entry.summons other = decide (run = other))
    (hforgets : ∀ other, entry.forgets other = false) : d.Rings run (d.enqueue entry) := by
  refine ⟨?_, fun other hother => ?_, fun other => ?_⟩
  · rw [summons_enqueue, hsummons, if_pos (decide_eq_true rfl)]
  · rw [summons_enqueue, hsummons, decide_eq_false (Ne.symm hother)]
    rfl
  · rw [farewells_enqueue, hforgets]
    rfl

theorem rings_main (d : Desk) (run : RunId) : d.Rings run (d.enqueue (.thread run .main)) :=
  d.rings_enqueue (fun _ => rfl) fun _ => rfl

theorem rings_gathered (d : Desk) (run : RunId) : d.Rings run (d.enqueue (.gathered run)) :=
  d.rings_enqueue (fun _ => rfl) fun _ => rfl

theorem summons_push (d : Desk) (s : Service) (run : RunId) :
    summons { d with services := d.services.push s } run = d.summons run + if s.summons run = true then 1 else 0 := by
  rw [summons, summons, Array.toList_push, List.countP_append, List.countP_singleton, Nat.add_assoc]

/-- A service that is opened summons the main thread that opens it. -/
theorem rings_open (d : Desk) (run : RunId) (work : Work) : d.Rings run (d.open_ run .main work).2 := by
  apply Rings.before _ (even_service { d with services := d.services.push { run, side := .main, work } } _)
  have hcounts (other : RunId) : ({ run, side := .main, work } : Service).summons other = decide (run = other) := by
    simp [Service.summons, Stage.isDone]
  refine ⟨?_, fun other hother => ?_, fun other => rfl⟩
  · rw [summons_push, hcounts, if_pos (decide_eq_true rfl)]
  · rw [summons_push, hcounts, decide_eq_false (Ne.symm hother)]
    rfl

theorem even_open (d : Desk) (run : RunId) (work : Work) : d.Even (d.open_ run .worker work).2 := by
  apply Even.trans _ (even_service { d with services := d.services.push { run, side := .worker, work } } _)
  refine ⟨fun other => ?_, fun other => rfl⟩
  rw [summons_push]
  simp [Service.summons]

/-- A service that is done summons its thread by an entry of the queue. -/
theorem even_complete (d : Desk) {id : ServiceId} (hsize : id < d.services.size)
    (hbefore : (d.service id).stage.isDone = false) (r : ServiceResult) : d.Even (d.complete id r) := by
  refine ⟨fun run => ?_, fun run => ?_⟩
  · have hcount := countP_modify (·.summons run) d.services hsize fun s => { s with stage := .done r }
    rw [← d.service_eq hsize] at hcount
    have hentry : (Ready.thread (d.service id).run (d.service id).side).summons run = (d.service id).summons run := by
      rw [Service.summons, hbefore]
      cases (d.service id).side <;> simp [Ready.summons]
    have hdone : ({ d.service id with stage := .done r } : Service).summons run = false := by
      simp [Service.summons, Stage.isDone]
    rw [complete, summons_enqueue, hentry]
    simp only [hdone, Bool.false_eq_true, if_false, Nat.add_zero] at hcount
    unfold summons
    change d.ready.toList.countP _ + (d.services.modify id fun s => { s with stage := .done r }).toList.countP _ + _ = _
    omega
  · rw [complete, farewells_enqueue]
    cases (d.service id).side <;> rfl

theorem even_again (d : Desk) {id : ServiceId} {stage : Stage} (hbefore : (d.service id).stage.isDone = false)
    (hafter : stage.isDone = false) : d.Even ((d.setStage id stage).enqueue (.service id)) :=
  (d.even_setStage id hbefore hafter).trans (even_service _ id)

theorem even_beginDialog (d : Desk) {id : ServiceId} (hsize : id < d.services.size)
    (hopen : (d.service id).stage.isDone = false) (kind : DialogKind) (message default : String) :
    d.Even (d.beginDialog id kind message default) := by
  have hrecorded (r : ServiceResult) : d.Even ((d.recordDialog kind message).complete id r) := by
    refine Even.after (even_complete _ ?_ ?_ r) rfl rfl
    · exact hsize
    · exact hopen
  unfold beginDialog
  split
  · exact hrecorded _
  · exact d.even_complete hsize hopen _
  · dsimp only
    split
    · exact hrecorded _
    · refine Even.after (even_setStage _ id ?_ rfl) rfl rfl
      exact hopen
  · refine Even.after (even_setStage _ id ?_ rfl) rfl rfl
    exact hopen

theorem even_beginSleep (d : Desk) {id : ServiceId} (hopen : (d.service id).stage.isDone = false) (ms : Time) :
    d.Even (d.beginSleep id ms) := by
  unfold beginSleep
  dsimp only
  split
  · refine Even.after (even_again _ ?_ rfl) rfl rfl
    exact hopen
  · split
    · refine Even.after (even_setStage _ id ?_ rfl) rfl rfl
      exact hopen
    · exact d.even_again hopen rfl

theorem Deed.even {run : RunId} (h : d.Deed run d') : d.Even d' := by
  cases h with
  | host | subscribe => exact .of_eq rfl rfl
  | publish event => exact d.even_publish event

theorem even_answer (d : Desk) (p : Plain) : d.Even (d.answer p) := by
  unfold answer
  split
  · exact .of_eq rfl rfl
  · exact Even.after (even_wake _ _ _) rfl rfl

theorem even_waited (h : d.waitForWorld? = some d') : d.Even d' := by
  unfold waitForWorld? at h
  split at h
  · cases h
    exact Even.after (even_wake _ _ _) rfl rfl
  · split at h
    · cases h
    · cases h
      exact Even.after (even_wake _ _ _) rfl rfl

end Desk

namespace Run

variable {r : Run} {d : Desk} {service : ServiceId}

theorem answerCommand_even (hsize : service < d.services.size) (hopen : (d.service service).stage.isDone = false)
    (answer : CommandAnswer) (args : Plain) : d.Even (r.answerCommand d service answer args).2 := by
  unfold answerCommand
  split
  · split <;> exact d.even_complete hsize hopen _
  · exact d.even_complete hsize hopen _

theorem tickCommand_even (hsize : service < d.services.size) (hopen : (d.service service).stage.isDone = false)
    (ticks : Nat) (answer : CommandAnswer) (args : Plain) : d.Even (r.tickCommand d service ticks answer args).2 := by
  cases ticks with
  | zero => exact answerCommand_even hsize hopen answer args
  | succ left => exact d.even_again hopen rfl

theorem beginCommand_even (hsize : service < d.services.size) (hopen : (d.service service).stage.isDone = false)
    (name : String) (args : Plain) : d.Even (r.beginCommand d service name args).2 := by
  refine Desk.Even.after (tickCommand_even ?_ ?_ _ _ _) rfl rfl
  · exact hsize
  · exact hopen

theorem beginService_even (hsize : service < d.services.size) (hopen : (d.service service).stage.isDone = false)
    (work : Work) : d.Even (r.beginService d service work).2 := by
  cases work with
  | dialog kind message default => exact d.even_beginDialog hsize hopen kind message default
  | command name args => exact beginCommand_even hsize hopen name args
  | request q => exact beginCommand_even hsize hopen _ _
  | sleep ms => exact d.even_beginSleep hopen ms
  | idle =>
    simp only [beginService]
    split
    · exact d.even_complete hsize hopen _
    · exact d.even_setStage service hopen rfl
  | join =>
    simp only [beginService]
    split
    · exact d.even_complete hsize hopen _
    · refine Desk.Even.after (Desk.even_setStage _ service ?_ rfl) rfl rfl
      exact hopen

/-- A service that is opened summons its thread until it is done, and once more then. -/
theorem stepService_even (r : Run) (hsize : service < d.services.size) : d.Even (r.stepService d service).2 := by
  simp only [stepService]
  split
  · exact .refl d
  · rename_i hopen
    apply d.even_complete hsize
    generalize (d.service service).stage = stage at hopen
    cases stage with
    | done result => exact absurd rfl (hopen result)
    | _ => rfl
  · rename_i hfresh
    exact beginService_even hsize (by rw [hfresh]; rfl) _
  · rename_i hticking
    exact tickCommand_even hsize (by rw [hticking]; rfl) _ _ _
  · rename_i hslept
    exact d.even_complete hsize (by rw [hslept]; rfl) _
  · rename_i hwoken
    exact d.even_complete hsize (by rw [hwoken]; rfl) _
  · exact .refl d

end Run

def Control.hasFinished : Control → Bool
  | .finished => true
  | _ => false

theorem Control.hasFinished_iff {control : Control} : control.hasFinished = true ↔ control = .finished := by
  cases control <;> simp [hasFinished]

def Run.gathers (r : Run) (worker : Thread) : Nat := if r.gathering && !worker.control.hasFinished then 1 else 0

theorem Run.gathers_eq {r r' : Run} (h : r'.gathering = r.gathering) (worker : Thread) :
    r'.gathers worker = r.gathers worker := by
  rw [gathers, gathers, h]

theorem Run.gathers_finished (r : Run) {worker : Thread} (h : worker.control.hasFinished = true) :
    r.gathers worker = 0 := by
  simp [gathers, h]

theorem Run.gathers_going (r : Run) {worker : Thread} (h : worker.control.hasFinished = false) :
    r.gathers worker = if r.gathering = true then 1 else 0 := by
  simp [gathers, h]

def Run.workerBeside (r : Run) (t : Thread) : Side → Thread
  | .main => r.worker
  | .worker => t

def Pace.goesOn : Pace → Bool
  | .go | .yield => true
  | .park | .finished => false

/-- What a step of the main thread uses up: it goes on, or has finished, or else has lost its turn. -/
def Step.uses (s : Step) : Side → Nat
  | .main => (if s.pace.goesOn = true then 1 else 0) + if s.thread.control.hasFinished = true then 1 else 0
  | .worker => 0

def Side.turns : Side → Nat
  | .main => 1
  | .worker => 0

/-- What a step means for the main thread of its run: it is not summoned more often than the step lets it. -/
structure Step.Spends (side : Side) (r : Run) (d : Desk) (t : Thread) (s : Step) : Prop where
  others : ∀ other, other ≠ r.id → s.desk.summons other = d.summons other
  farewells : ∀ other, s.desk.farewells other = d.farewells other
  owed : s.desk.summons r.id + s.run.gathers (r.workerBeside s.thread side) + s.uses side ≤
    d.summons r.id + r.gathers (r.workerBeside t side) + side.turns
  ended : decide (s.pace = .finished) = s.thread.control.hasFinished
  told : s.run.workerCancelled = true →
    r.workerCancelled = true ∨ side = .main ∧ r.worker.control.hasFinished = false

structure Run.Abides (r r' : Run) : Prop where
  gathering : r'.gathering = r.gathering
  told : r'.workerCancelled = false ∨ r'.workerCancelled = r.workerCancelled

namespace Run

variable {side : Side} {r r' r'' : Run} {d d' : Desk} {t : Thread} {stack : List Frame}

theorem Abides.of_eq (hgathering : r'.gathering = r.gathering) (htold : r'.workerCancelled = r.workerCancelled) :
    r.Abides r' := ⟨hgathering, .inr htold⟩

theorem Abides.trans (h : r.Abides r') (h' : r'.Abides r'') : r.Abides r'' := by
  refine ⟨h'.gathering.trans h.gathering, ?_⟩
  rcases h'.told with hfalse | hsame
  · exact .inl hfalse
  · rw [hsame]
    exact h.told

theorem Abides.told_before (h : r.Abides r') (htold : r'.workerCancelled = true) : r.workerCancelled = true := by
  rcases h.told with hfalse | hsame
  · rw [hfalse] at htold
    cases htold
  · exact hsame ▸ htold

theorem spends_even {s : Step} (heven : d.Even s.desk) (habides : r.Abides s.run)
    (hpace : decide (s.pace = .finished) = false) (hafter : s.thread.control.hasFinished = false)
    (hbefore : side = .main ∨ t.control.hasFinished = false) : s.Spends side r d t := by
  refine ⟨fun other _ => heven.summons other, heven.farewells, ?_, hpace.trans hafter.symm, ?_⟩
  · rw [heven.summons, gathers_eq habides.gathering]
    cases side with
    | main =>
      have huses : s.uses .main ≤ 1 := by
        rw [Step.uses, hafter]
        split <;> decide
      exact Nat.add_le_add_left huses _
    | worker =>
      have hgoing := hbefore.resolve_left (by decide)
      simp only [workerBeside, r.gathers_going hafter, r.gathers_going hgoing]
      exact Nat.le_refl _
  · exact fun htold => .inl (habides.told_before htold)

theorem spends_rings {s : Step} (hrings : d.Rings r.id s.desk) (habides : r.Abides s.run) (hpace : s.pace = .park)
    (hafter : s.thread.control.hasFinished = false) : s.Spends .main r d t := by
  refine ⟨hrings.others, hrings.farewells, ?_, ?_, fun htold => .inl (habides.told_before htold)⟩
  · have huses : s.uses .main = 0 := by
      rw [Step.uses, hpace, hafter]
      rfl
    simp only [hrings.self, gathers_eq habides.gathering, huses, workerBeside, Side.turns]
    omega
  · rw [hafter, hpace]
    rfl

theorem becomeIdle_abides (r : Run) (d : Desk) : r.Abides (r.becomeIdle d).1 ∧ d.Even (r.becomeIdle d).2 := by
  unfold becomeIdle
  split
  · exact ⟨.of_eq rfl rfl, .refl d⟩
  · exact ⟨.of_eq rfl rfl, d.even_wakeAll _⟩

theorem handlerFinished_abides (r : Run) (d : Desk) :
    r.Abides (r.handlerFinished d).1 ∧ d.Even (r.handlerFinished d).2 := by
  obtain ⟨habides, heven⟩ := becomeIdle_abides { r with governor := { r.governor with handling := false } } d
  exact ⟨⟨habides.gathering, habides.told⟩, heven.trans (Desk.even_handled _ _)⟩

theorem request_spends (work : Work) (hbefore : t.control.hasFinished = false) :
    (r.request d side work stack).Spends side r d t := by
  unfold request
  split
  · exact spends_even (.refl d) (.of_eq rfl rfl) rfl rfl (.inr hbefore)
  · cases side with
    | main => exact spends_rings (d.rings_open r.id work) (.of_eq rfl rfl) rfl rfl
    | worker =>
      obtain ⟨habides, heven⟩ := becomeIdle_abides { r with governor := { r.governor with
        pending := r.governor.pending ++ [(d.open_ r.id .worker work).1] } } (d.open_ r.id .worker work).2
      refine spends_even ((d.even_open r.id work).trans heven) ?_ rfl rfl (.inr hbefore)
      exact ⟨habides.gathering, habides.told⟩

theorem resume_spends (service : ServiceId) (releases interrupted : Bool) (hbefore : t.control.hasFinished = false) :
    (r.resume d service releases interrupted stack).Spends side r d t := by
  unfold resume
  dsimp only
  split
  · exact spends_even (.refl d) (.of_eq rfl rfl) rfl rfl (.inr hbefore)
  · split <;> exact spends_even (.refl d) (.of_eq rfl rfl) rfl rfl (.inr hbefore)

/-- The worker ends, and its main thread is summoned if it waits for that. -/
theorem retire_spends (heven : d.Even d') (hid : r'.id = r.id) (habides : r.Abides r')
    (hbefore : t.control.hasFinished = false) :
    (r'.retire d').Spends .worker r d t := by
  have hpasses : (∀ other, other ≠ r.id → (r'.retire d').desk.summons other = d.summons other) ∧
      (∀ other, (r'.retire d').desk.farewells other = d.farewells other) ∧
      (r'.retire d').desk.summons r.id = d.summons r.id + if r.gathering = true then 1 else 0 := by
    simp only [retire, habides.gathering]
    cases r.gathering with
    | true =>
      rw [hid]
      have hrings := (d'.rings_gathered r.id).after heven
      exact ⟨hrings.others, hrings.farewells, hrings.self⟩
    | false => exact ⟨fun other _ => heven.summons other, heven.farewells, heven.summons r.id⟩
  obtain ⟨hothers, hfarewells, hself⟩ := hpasses
  refine ⟨hothers, hfarewells, ?_, rfl, fun htold => .inl (habides.told_before htold)⟩
  have hafter : (r'.retire d').run.gathers (r'.retire d').thread = 0 := gathers_finished _ rfl
  simp only [workerBeside, Step.uses, hafter, hself, r.gathers_going hbefore]
  exact Nat.le_refl _

theorem leaveHandler_spends (result : Except Raised Unit) (hbefore : t.control.hasFinished = false) :
    (r.leaveHandler d result).Spends .worker r d t := by
  obtain ⟨r', d', hjudged, hstep⟩ := r.leaveHandler_judged d result
  obtain ⟨hid, hjudges, hevens⟩ : r'.id = r.id ∧ r.Abides r' ∧ d.Even d' := by
    cases hjudged with
    | well => exact ⟨rfl, .of_eq rfl rfl, .refl d⟩
    | aborted e => exact ⟨rfl, .of_eq rfl rfl, d.even_interruptAll _⟩
  obtain ⟨hfinished, heven⟩ := r'.handlerFinished_abides d'
  have habides := hjudges.trans hfinished
  rcases hstep with hstep | hstep
  · rw [hstep]
    exact spends_even (hevens.trans heven) habides rfl rfl (.inr hbefore)
  · rw [hstep]
    exact retire_spends (hevens.trans heven) ((r'.handlerFinished_quiet d').id.trans hid) habides hbefore

/-- A worker that has ended already summons its main thread at once; another is told, or woken to hear of it. -/
theorem cancelWorker_cases (r : Run) (d : Desk) :
    (r.worker.control.hasFinished = true ∧ r.Abides (r.cancelWorker d).1 ∧ d.Rings r.id (r.cancelWorker d).2) ∨
      (r.worker.control.hasFinished = false ∧ d.Even (r.cancelWorker d).2) := by
  unfold cancelWorker
  split
  · rename_i hfinished
    exact .inl ⟨by rw [hfinished]; rfl, .of_eq rfl rfl, d.rings_gathered r.id⟩
  · rename_i hresume
    refine .inr ⟨by rw [hresume]; rfl, ?_⟩
    split
    · exact .refl d
    · exact d.even_interrupt _
  · rename_i hgoes _
    have hgoing : r.worker.control.hasFinished = false := by
      generalize r.worker.control = control at hgoes
      cases control with
      | finished => exact absurd rfl hgoes
      | _ => rfl
    refine .inr ⟨hgoing, ?_⟩
    dsimp only
    split
    · exact (d.even_modifyBox r.id _).trans (Desk.even_worker _ _)
    · exact d.even_modifyBox r.id _

/-- A run that closes waits for the end of its worker. -/
theorem close_spends (ending : Ending) : (r.close d ending).Spends .main r d t := by
  let d₁ := (r.revoke (d.modifyBox r.id fun b => { b with closed := true })).2
  let r₂ := ((r.revoke (d.modifyBox r.id fun b => { b with closed := true })).1.cancelled d₁).1
  have heven : d.Even (d₁.interruptAll r.governor.pending) :=
    Desk.Even.after (Desk.even_interruptAll d₁ _) rfl rfl
  have huses : (r.close d ending).uses .main = 0 := rfl
  have hrun : (r.close d ending).run.gathering = true := rfl
  rcases cancelWorker_cases r₂ (d₁.interruptAll r.governor.pending) with ⟨hfinished, habides, hrings⟩ | ⟨hgoing, hevens⟩
  · have hrings' : d.Rings r.id (r.close d ending).desk := hrings.after heven
    refine ⟨hrings'.others, hrings'.farewells, ?_, rfl, fun htold => ?_⟩
    · have hgathers : (r.close d ending).run.gathers r.worker = 0 := gathers_finished _ hfinished
      simp only [workerBeside, huses, hrings'.self, hgathers, Side.turns]
      omega
    · exact .inl (habides.told_before htold)
  · have heven' : d.Even (r.close d ending).desk := heven.trans hevens
    refine ⟨fun other _ => heven'.summons other, heven'.farewells, ?_, rfl, fun _ => .inr ⟨rfl, hgoing⟩⟩
    have hgathers : (r.close d ending).run.gathers r.worker = 1 := by
      have hgoing' : r.worker.control.hasFinished = false := hgoing
      rw [gathers_going _ hgoing', hrun]
      rfl
    simp only [workerBeside, huses, heven'.summons, hgathers, Side.turns]
    omega

theorem hoist_abides (r : Run) (stmts : List Stmt) : r.Abides (r.hoist stmts) := by
  unfold hoist
  induction stmts generalizing r with
  | nil => exact .of_eq rfl rfl
  | cons s stmts ih =>
    rw [List.foldl_cons]
    refine Abides.trans ?_ (ih _)
    split <;> exact .of_eq rfl rfl

theorem receive_spends (hbefore : t.control.hasFinished = false) : (r.receive d).Spends .worker r d t := by
  simp only [receive]
  split
  · exact retire_spends (.refl d) rfl (.of_eq rfl rfl) hbefore
  · split
    · exact spends_even (d.even_modifyBox r.id _) (.of_eq rfl rfl) rfl rfl (.inr hbefore)
    · split
      · exact spends_even (d.even_modifyBox r.id _) (.of_eq rfl rfl) rfl rfl (.inr hbefore)
      · exact spends_even (d.even_modifyBox r.id _) (.of_eq rfl rfl) rfl rfl (.inr hbefore)

theorem settle_spends (ending : Ending) : (r.settle d ending).Spends .main r d t := by
  have heven : d.Even (r.settle d ending).desk := by
    simp only [settle]
    split
    · exact d.even_publish _
    · exact .refl d
  refine ⟨fun other _ => heven.summons other, heven.farewells, ?_, rfl, .inl⟩
  rw [heven.summons]
  exact Nat.le_refl _

theorem computes_going {t : Thread} (h : t.computes = true) : t.control.hasFinished = false := by
  obtain ⟨control, stack⟩ := t
  cases control with
  | finished => cases h
  | _ => rfl

theorem step_spends (hfits : t.Fits) (hsided : t.Sided side) : (step side r d t).Spends side r d t := by
  cases hsided.turn hfits with
  | computes hcomputes =>
    have hcalm := @step_calm side r d t hcomputes
    have habides : r.Abides (step side r d t).run := .of_eq hcalm.alike.gathering hcalm.alike.workerCancelled
    refine spends_even hcalm.deed.even habides ?_ ?_ (.inr (computes_going hcomputes))
    · rw [hcalm.pace]
      rfl
    · have hinner := hcalm.inner
      generalize (step side r d t).thread.control = control at hinner
      cases control with
      | finished => cases hinner
      | _ => rfl
  | checkpoint stack =>
    simp only [step, checkpoint]
    split
    · exact spends_even (.refl d) (.of_eq rfl rfl) rfl rfl (.inr rfl)
    · split <;> exact spends_even (.refl d) (.of_eq rfl rfl) rfl rfl (.inr rfl)
  | request work stack => exact request_spends work rfl
  | resume service stack => exact resume_spends service _ false rfl
  | handled signal => exact leaveHandler_spends (.ok ()) rfl
  | failed e => exact leaveHandler_spends (.error e) rfl
  | ran signal => exact spends_even (.refl d) (.of_eq rfl rfl) rfl rfl (.inl rfl)
  | stopped e hframe =>
    rcases hframe with rfl | ⟨v, rfl⟩
    · exact close_spends _
    · exact close_spends _
  | joined result v =>
    simp only [step, reply]
    split
    · exact close_spends _
    · exact close_spends _
  | start =>
    cases side with
    | main => exact spends_even (d.even_worker r.id) (r.hoist_abides _) rfl rfl (.inl rfl)
    | worker => exact spends_even (.refl d) (.of_eq rfl rfl) rfl rfl (.inr rfl)
  | receive => exact receive_spends rfl
  | settle ending => exact settle_spends ending
  | finished =>
    refine ⟨fun _ _ => rfl, fun _ => rfl, ?_, rfl, .inl⟩
    cases side <;> exact Nat.le_refl _

theorem interruptWorker_spends (hrested : t.Rested) (hbefore : t.control.hasFinished = false) :
    (r.interruptWorker d t).Spends .worker r d t := by
  cases hrested with
  | resume service stack => exact spends_even (.refl d) ⟨rfl, .inl rfl⟩ rfl rfl (.inr hbefore)
  | recheck stack => exact spends_even (.refl d) ⟨rfl, .inl rfl⟩ rfl rfl (.inr hbefore)
  | @bare control hresume hrecheck =>
    simp only [interruptWorker]
    exact retire_spends (.refl d) rfl ⟨rfl, .inl rfl⟩ hbefore

theorem interruptWorker_told (r : Run) (d : Desk) (t : Thread) :
    (r.interruptWorker d t).run.workerCancelled = false := by
  simp only [interruptWorker]
  split <;> rfl

end Run

end DeskScript
