import DeskScript.Proofs.Machine.Summons

set_option autoImplicit false

/-!
# A run ends once

In every interleaving, the main thread of a program has at most one way to go on, and none when it has finished:
`Moment.Possible.load_le`. So a run leaves the table of running scripts at most once, and not before it has finished:
`Moment.Possible.leaving_le`.
-/

namespace DeskScript

namespace World

variable {w w' : World}

inductive Entered (w w' : World) : Prop
  | same (hsize : w'.runs.size = w.runs.size) (heven : w.desk.Even w'.desk) (hrunning : w'.running = w.running)
  | refused (r : Run) (hruns : w'.runs = w.runs.push r) (hwaits : r.gathering = false ∧ r.workerCancelled = false)
      (hprogram : r.program = none) (heven : w.desk.Even w'.desk) (hrunning : w'.running = w.running)
  | begun (r : Run) (hruns : w'.runs = w.runs.push r) (hwaits : r.gathering = false ∧ r.workerCancelled = false)
      (hprogram : r.program.isSome = true) (hrings : w.desk.Rings w.runs.size w'.desk)
      (hrunning : w'.running = w.running.insert r.name w.runs.size)

theorem declareAll_waits {r r' : Run} {bindings : List (String × Plain)} (h : declareAll r bindings = .ok r')
    (hr : r.gathering = false ∧ r.workerCancelled = false) : r'.gathering = false ∧ r'.workerCancelled = false := by
  apply declareAll_induction (P := fun r => r.gathering = false ∧ r.workerCancelled = false) h _ hr
  intro r heap name v hr
  exact hr

theorem nameFor_running (w : World) (given : Option String) : (w.nameFor given).2.running = w.running := by
  unfold World.nameFor
  split
  · split <;> rfl
  · rfl

theorem addRun_even (w : World) (r : Run) : w.desk.Even (w.addRun r).desk := .of_eq rfl rfl

theorem start_entered (w : World) (l : Launch) : w.Entered (w.start l).2 := by
  obtain ⟨hruns, hdesk⟩ := w.nameFor_same l.name
  have hrunning := w.nameFor_running l.name
  have hnamed : w.desk.Even (w.nameFor l.name).2.desk := hdesk ▸ .refl _
  have hpublish (w : World) (event : Event) : w.desk.Even (w.publish event).desk := w.desk.even_publish event
  simp only [World.start]
  generalize w.nameFor l.name = named at hruns hnamed hrunning ⊢
  have hheard (event : Event) : w.desk.Even (named.2.publish event).desk := hnamed.trans (hpublish _ _)
  split
  · split
    · refine .refused _ (congrArg (Array.push · _) hruns) ⟨rfl, rfl⟩ rfl ?_ hrunning
      exact ((hheard _).trans (hpublish _ _)).trans (addRun_even _ _)
    · refine .refused _ (congrArg (Array.push · _) hruns) ⟨rfl, rfl⟩ rfl ?_ hrunning
      exact (hheard _).trans (addRun_even _ _)
  · split
    · exact .same (congrArg Array.size hruns) (hheard _) hrunning
    · rename_i r hdeclared
      have hquiet := declareAll_quiet hdeclared
      have hsize : w.runs.size = named.2.runs.size := congrArg Array.size hruns.symm
      apply Entered.begun r (congrArg (Array.push · r) hruns) (declareAll_waits hdeclared ⟨rfl, rfl⟩)
      · rw [hquiet.program]
        rfl
      · rw [hsize]
        exact (Desk.rings_main _ _).after ((hheard _).trans (addRun_even _ r))
      · rw [hquiet.name, ← hrunning, hsize]
        rfl

theorem Driven.entered (h : w.Driven w') : w.Entered w' := by
  cases h with
  | start l => exact start_entered w l
  | launch name hparse limits startedAt heap scopes =>
    exact .begun _ rfl ⟨rfl, rfl⟩ rfl ((Desk.rings_main _ _).after (addRun_even w _)) rfl
  | publish event => exact .same rfl (w.desk.even_publish event) rfl
  | cancel id =>
    apply Entered.same (w.size_cancel id)
    · unfold World.cancel
      dsimp only
      split
      · exact .refl _
      · exact (w.desk.even_interruptAll _).trans (.of_eq rfl rfl)
    · unfold World.cancel
      dsimp only
      split <;> rfl
  | answer p => exact .same rfl (w.desk.even_answer p) rfl
  | turn => exact .same rfl (w.desk.even_enqueue (fun _ => rfl) fun _ => rfl) rfl
  | wait | configure | listen | unlisten | host => exact .same rfl (.of_eq rfl rfl) rfl

theorem concluded_counts (w : World) (id other : RunId) :
    (w.concluded id).desk.summons other = w.desk.summons other ∧
      (w.concluded id).desk.farewells other = w.desk.farewells other + if id = other then 1 else 0 := by
  have hforget : (w.desk.enqueue (.forget id)).summons other = w.desk.summons other ∧
      (w.desk.enqueue (.forget id)).farewells other = w.desk.farewells other + if id = other then 1 else 0 := by
    rw [Desk.summons_enqueue, Desk.farewells_enqueue]
    simp [Ready.summons, Ready.forgets]
  have hcontroller (d : Desk) : d.Even (d.enqueue .controller) := d.even_enqueue (fun _ => rfl) fun _ => rfl
  unfold World.concluded
  dsimp only
  split
  · exact ⟨((hcontroller _).summons other).trans hforget.1, ((hcontroller _).farewells other).trans hforget.2⟩
  · exact hforget

end World

/-- Nothing at a desk in order is about a run that is not there. -/
theorem Desk.Orderly.summons_new {runs : Nat} {d : Desk} (h : d.Orderly runs) {id : RunId} (hid : runs ≤ id) :
    d.summons id = 0 := by
  have hready : d.ready.toList.countP (·.summons id) = 0 := by
    rw [List.countP_eq_zero]
    intro entry hentry
    have hknows := h.ready entry hentry
    cases entry with
    | thread run side =>
      have hne : run ≠ id := Nat.ne_of_lt (Nat.lt_of_lt_of_le hknows hid)
      cases side <;> simp [Ready.summons, hne]
    | gathered run =>
      have hne : run ≠ id := Nat.ne_of_lt (Nat.lt_of_lt_of_le hknows hid)
      simp [Ready.summons, hne]
    | service | forget | controller => simp [Ready.summons]
  have hservices : d.services.toList.countP (·.summons id) = 0 := by
    rw [List.countP_eq_zero]
    intro s hs
    obtain ⟨service, hsize, rfl⟩ := List.mem_iff_getElem.1 hs
    have howner := h.owners service hsize
    rw [d.service_eq hsize] at howner
    have hne : d.services[service].run ≠ id := Nat.ne_of_lt (Nat.lt_of_lt_of_le howner hid)
    simp [Service.summons, hne]
  rw [Desk.summons, hready, hservices]

namespace Moment

variable {m n : Moment} {id other : RunId} {side : Side}

def goesOn (id : RunId) : Moment → Bool
  | within _ active .main s => decide (active = id) && s.pace.goesOn
  | within _ _ .worker _ | resting _ => false

def bows (id : RunId) : Moment → Bool
  | within _ active .main s => decide (active = id) && decide (s.pace = .finished)
  | within _ _ .worker _ | resting _ => false

def load (id : RunId) (m : Moment) : Nat :=
  m.desk.summons id + (m.run id).gathers (m.thread id .worker) + (if m.goesOn id = true then 1 else 0) +
    if (m.thread id .main).control.hasFinished = true then 1 else 0

def leaving (id : RunId) (m : Moment) : Nat := m.desk.farewells id + if m.bows id = true then 1 else 0

/-- A worker that was told to stop has not finished, and has not gone on since. -/
def Heard (id : RunId) (m : Moment) : Prop := (m.run id).workerCancelled = true →
  (m.thread id .worker).control.hasFinished = false ∧ ∀ w s, m ≠ within w id .worker s

/-- The desk at which a thread makes its step: what it was summoned by is used up. -/
structure Turn (id : RunId) (side : Side) (m : Moment) (d : Desk) : Prop where
  summons : ∀ other, d.summons other + (if id = other then side.turns else 0) =
    m.desk.summons other + if m.goesOn other = true then 1 else 0
  leaving : ∀ other, d.farewells other = m.leaving other

theorem turn_first {w : World} {ready : Queue Ready} (hpop : w.desk.ready.pop? = some (.thread id side, ready)) :
    Turn id side (resting w) { w.desk with ready } := by
  have hready := Queue.toList_of_pop? _ _ _ hpop
  refine ⟨fun other => ?_, fun other => ?_⟩
  · have hentry : (if (Ready.thread id side).summons other = true then 1 else 0) =
        if id = other then side.turns else 0 := by
      cases side with
      | main => simp only [Ready.summons, decide_eq_true_eq, Side.turns]
      | worker => simp [Ready.summons, Side.turns]
    change _ = w.desk.summons other + 0
    rw [Desk.summons, Desk.summons, hready, List.countP_cons, hentry]
    exact Nat.add_right_comm _ _ _
  · change _ = w.desk.farewells other + 0
    rw [Desk.farewells, Desk.farewells, hready, List.countP_cons]
    rfl

theorem turn_step {w : World} {s : Step} (hpace : s.pace = .go) : Turn id side (within w id side s) s.desk := by
  refine ⟨fun other => ?_, fun other => ?_⟩
  · change _ = s.desk.summons other + _
    cases side with
    | main => simp only [goesOn, hpace, Pace.goesOn, Bool.and_true, decide_eq_true_eq, Side.turns]
    | worker => simp [goesOn, Side.turns]
  · change _ = s.desk.farewells other + _
    cases side with
    | main => simp [bows, hpace]
    | worker => rfl

/-- A thread that acts makes a step that spends its turn. -/
theorem Acts.spends (hacts : Acts id side m n) (hm : Possible m) (hid : id < m.size) (hheard : Heard id m) :
    ∃ d s, Turn id side m d ∧ n.At id side s ∧ s.Spends side (m.run id) d (m.thread id side) ∧
      (∀ other, n.goesOn other = (decide (id = other) && decide (side = .main) && s.pace.goesOn)) ∧
      (∀ other, n.bows other = (decide (id = other) && decide (side = .main) && decide (s.pace = .finished))) := by
  have hfits := hm.sound.thread id side
  have hsided := hm.attended.sided hid side
  have hends (w : World) (s : Step) :
      (∀ other, (within w id side s).goesOn other = (decide (id = other) && decide (side = .main) && s.pace.goesOn)) ∧
      (∀ other, (within w id side s).bows other =
        (decide (id = other) && decide (side = .main) && decide (s.pace = .finished))) := by
    cases side with
    | main => simp [goesOn, bows]
    | worker => simp [goesOn, bows]
  cases hacts with
  | @first w ready hpop =>
    refine ⟨_, _, turn_first hpop, at_within _ id side _, ?_, hends _ _⟩
    cases side with
    | main => exact Run.step_spends hfits hsided
    | worker =>
      change Step.Spends _ _ _ _ (if (w.run id).workerCancelled = true then _ else _)
      split
      · rename_i htold
        exact Run.interruptWorker_spends (hsided.rested hfits ((hm.sound.runs id).rests .worker)) (hheard htold).1
      · exact Run.step_spends hfits hsided
  | @step w s hpace =>
    refine ⟨_, _, turn_step hpace, at_within w id side _, ?_, hends _ _⟩
    have hspends := @Run.step_spends side s.run s.desk _ hfits hsided
    rw [(at_within w id side s).run]
    rw [(at_within w id side s).thread] at hspends ⊢
    exact hspends

/-- Of another run, a step changes nothing that counts. -/
theorem Acts.others (hacts : Acts id side m n) (hm : Possible m) (hid : id < m.size) (hheard : Heard id m)
    (hother : other ≠ id) : n.desk.summons other = m.desk.summons other ∧ n.goesOn other = m.goesOn other ∧
      n.leaving other = m.leaving other := by
  obtain ⟨d, s, hturn, hat, hspends, hgoes, hbows⟩ := hacts.spends hm hid hheard
  have hname := hm.attended.named hid
  have hfalse : decide (id = other) = false := decide_eq_false (Ne.symm hother)
  have hgoesBefore : m.goesOn other = false := by
    cases hacts with
    | first _ => rfl
    | step _ => cases side <;> simp [goesOn, hfalse]
  have hgoesAfter : n.goesOn other = false := by simp [hgoes, hfalse]
  have hbowsAfter : n.bows other = false := by simp [hbows, hfalse]
  have hsummons := hturn.summons other
  rw [if_neg (Ne.symm hother), hgoesBefore] at hsummons
  refine ⟨?_, hgoesAfter.trans hgoesBefore.symm, ?_⟩
  · rw [hat.desk, hspends.others other (by rw [hname]; exact hother)]
    exact hsummons
  · rw [leaving, hat.desk, hspends.farewells, hbowsAfter, hturn.leaving]
    rfl

/-- A step does not multiply the ways of its main thread to go on. -/
theorem Acts.load_le (hacts : Acts id side m n) (hm : Possible m) (hid : id < m.size) (hheard : Heard id m) :
    n.load id ≤ m.load id := by
  obtain ⟨d, s, hturn, hat, hspends, hgoes, -⟩ := hacts.spends hm hid hheard
  obtain ⟨hthread, -⟩ := hacts.stride hm.sound
  have hname := hm.attended.named hid
  have howed := hspends.owed
  have hsummons := hturn.summons id
  rw [if_pos rfl] at hsummons
  rw [hname] at howed
  unfold load
  rw [hat.run, hat.desk]
  cases side with
  | main =>
    have hworker : n.thread id .worker = (m.run id).worker := hthread.trans hacts.worker_stored
    have hgoing : n.goesOn id = s.pace.goesOn := by simp [hgoes]
    rw [hworker, hgoing, hat.thread, hacts.worker_stored]
    simp only [Run.workerBeside, Step.uses] at howed
    omega
  | worker =>
    have hgoing : n.goesOn id = false := by simp [hgoes]
    have hmain : n.thread id .main = m.thread id .main := hthread
    rw [hgoing, hmain, hat.thread]
    simp only [Run.workerBeside, Step.uses] at howed
    simp only [Bool.false_eq_true, if_false]
    omega

inductive Forgets (id : RunId) : Moment → Moment → Prop
  | intro {w : World} {ready : Queue Ready} (hpop : w.desk.ready.pop? = some (.forget id, ready)) :
      Forgets id (resting w) (resting ((w.dequeued ready).advance (.forget id)))

/-- The move leaves the run as many ways to go on, and takes it from the table at most. -/
structure Stays (id : RunId) (m n : Moment) : Prop where
  summons : id < m.size → (n.desk.summons id + if n.goesOn id = true then 1 else 0) =
    m.desk.summons id + if m.goesOn id = true then 1 else 0
  leaving : n.leaving id = m.leaving id ∨ Forgets id m n

theorem Forgets.leaving (h : Forgets id m n) : n.leaving id + 1 = m.leaving id := by
  cases h with
  | @intro w ready hpop =>
    have hready := Queue.toList_of_pop? _ _ _ hpop
    have hentry : (Ready.forget id).forgets id = true := decide_eq_true rfl
    change ready.toList.countP (·.forgets id) + 1 = w.desk.ready.toList.countP (·.forgets id)
    rw [hready, List.countP_cons, if_pos hentry]

theorem stays_even {w w' : World} (h : w.desk.Even w'.desk) : Stays id (resting w) (resting w') :=
  ⟨fun _ => h.summons id, .inl (h.farewells id)⟩

/-- The desk has what the moment has, and who goes on is summoned, and who has finished is to leave. -/
structure Reckons (m : Moment) (d : Desk) : Prop where
  summons : ∀ other, d.summons other = m.desk.summons other + if m.goesOn other = true then 1 else 0
  leaving : ∀ other, d.farewells other = m.leaving other

/-- A slice that ends puts its thread into the queue, or the end of its run. -/
theorem rest_reckons {w : World} {s : Step} (hpace : s.pace ≠ .go) (hname : s.run.id = id) :
    Reckons (within w id side s) (w.rest id side s).desk := by
  have hidle (side : Side) (heven : s.desk.Even (w.rest id side s).desk)
      (hgoes : ∀ other, (within w id side s).goesOn other = false)
      (hbows : ∀ other, (within w id side s).bows other = false) :
      Reckons (within w id side s) (w.rest id side s).desk := by
    refine ⟨fun other => ?_, fun other => ?_⟩
    · rw [hgoes]
      exact heven.summons other
    · rw [leaving, hbows]
      exact heven.farewells other
  cases side with
  | worker =>
    apply hidle .worker _ (fun _ => rfl) fun _ => rfl
    simp only [World.rest, Step.store, reduceCtorEq, decide_false, Bool.and_false, Bool.false_eq_true, if_false]
    split
    · exact s.desk.even_worker s.run.id
    · exact .refl _
  | main =>
    cases hp : s.pace with
    | go => exact absurd hp hpace
    | park =>
      apply hidle .main _ (by simp [goesOn, hp, Pace.goesOn]) (by simp [bows, hp])
      simp only [World.rest, Step.store, hp]
      exact .refl _
    | yield =>
      have hdesk : (w.rest id .main s).desk = s.desk.enqueue (.thread s.run.id .main) := by
        simp only [World.rest, Step.store, hp]
        rfl
      rw [hdesk, hname]
      refine ⟨fun other => ?_, fun other => ?_⟩
      · rw [Desk.summons_enqueue]
        simp [goesOn, hp, Pace.goesOn, Ready.summons, Moment.desk]
      · rw [Desk.farewells_enqueue, leaving]
        simp [bows, hp, Ready.forgets, Moment.desk]
    | finished =>
      have hrest : w.rest id .main s =
          ({ w with desk := s.desk }.setRun id { s.run with main := s.thread }).concluded id := by
        simp only [World.rest, Step.store, hp]
        rfl
      rw [hrest]
      refine ⟨fun other => ?_, fun other => ?_⟩
      · rw [(World.concluded_counts _ id other).1]
        simp [goesOn, hp, Pace.goesOn, World.setRun, Moment.desk]
      · rw [(World.concluded_counts _ id other).2, leaving]
        simp [bows, hp, World.setRun, Moment.desk]

/-- An entry that is no thread leaves the queue, and puts another in its place at most. -/
theorem entry_stays {w : World} {entry : Ready} {ready : Queue Ready} (hw : w.Orderly)
    (hpop : w.desk.ready.pop? = some (entry, ready)) (hentry : ∀ id side, entry ≠ .thread id side) :
    Stays id (resting w) (resting ((w.dequeued ready).advance entry)) := by
  have hready := Queue.toList_of_pop? _ _ _ hpop
  have hsummons : w.desk.summons id =
      (w.dequeued ready).desk.summons id + if entry.summons id = true then 1 else 0 := by
    rw [Desk.summons, hready, List.countP_cons]
    exact Nat.add_right_comm _ _ _
  have hfarewells : w.desk.farewells id =
      (w.dequeued ready).desk.farewells id + if entry.forgets id = true then 1 else 0 := by
    rw [Desk.farewells, hready, List.countP_cons]
    rfl
  have hdequeued (heven : (w.dequeued ready).desk.Even ((w.dequeued ready).advance entry).desk)
      (hcalls : entry.summons id = false) (hforgets : entry.forgets id = false) :
      Stays id (resting w) (resting ((w.dequeued ready).advance entry)) := by
    rw [hcalls] at hsummons
    rw [hforgets] at hfarewells
    exact ⟨fun _ => (heven.summons id).trans hsummons.symm, .inl ((heven.farewells id).trans hfarewells.symm)⟩
  cases entry with
  | thread other side => exact absurd rfl (hentry other side)
  | controller => exact hdequeued (.refl _) rfl rfl
  | service service =>
    have hsize : service < w.desk.services.size := by
      have hmem : .service service ∈ w.desk.ready.toList := hready ▸ List.mem_cons_self
      exact hw.desk.ready _ hmem
    apply hdequeued _ rfl rfl
    exact Run.stepService_even ((w.dequeued ready).run (w.desk.service service).run) hsize
  | gathered other =>
    have henqueued := Desk.summons_enqueue (w.dequeued ready).desk (.thread other .main) id
    refine ⟨fun _ => ?_, .inl ?_⟩
    · exact henqueued.trans hsummons.symm
    · exact (Desk.farewells_enqueue (w.dequeued ready).desk (.thread other .main) id).trans hfarewells.symm
  | forget other =>
    refine ⟨fun _ => hsummons.symm, ?_⟩
    by_cases hid : other = id
    · subst hid
      exact .inr (.intro hpop)
    · have hforgets : (Ready.forget other).forgets id = false := decide_eq_false hid
      rw [hforgets] at hfarewells
      exact .inl hfarewells.symm

theorem Move.stays (hn : Move m n) (hm : Possible m) (hheard : ∀ id, id < m.size → Heard id m)
    (hacts : ∀ side, ¬Acts id side m n) : Stays id m n := by
  have hothers {other : RunId} {side : Side} (hother : Acts other side m n) : Stays id m n := by
    have hsize := hm.orderly.acting hother
    have hne : id ≠ other := by
      rintro rfl
      exact hacts side hother
    obtain ⟨hsummons, hgoes, hleaving⟩ := hother.others hm hsize (hheard other hsize) hne
    exact ⟨fun _ => by rw [hsummons, hgoes], .inl hleaving⟩
  cases hn with
  | @reorder w ready hperm =>
    refine ⟨fun _ => ?_, .inl ?_⟩
    · exact congrArg (· + w.desk.services.toList.countP (·.summons id)) (hperm.symm.countP_eq _)
    · exact hperm.symm.countP_eq _
  | next hn =>
    cases hn with
    | @driven w w' hdriven =>
      cases hdriven.entered with
      | same hsize heven => exact stays_even heven
      | refused r hruns hwaits hprogram heven => exact stays_even heven
      | begun r hruns hwaits hprogram hrings =>
        exact ⟨fun hid => hrings.others id (Nat.ne_of_lt hid), .inl (hrings.farewells id)⟩
    | waited _ hdesk => exact stays_even (Desk.even_waited hdesk)
    | entry hpop hentry => exact entry_stays ⟨hm.orderly.desk, hm.orderly.idlers⟩ hpop hentry
    | thread hpop => exact hothers (.first hpop)
    | step hpace => exact hothers (.step hpace)
    | @rest w active side s hpace =>
      have hname : s.run.id = active := by
        have hactive := hm.attended.named (hm.orderly.active active rfl)
        rwa [(at_within w active side s).run] at hactive
      have hreckons := @rest_reckons active side w s hpace hname
      exact ⟨fun _ => hreckons.summons id, .inl (hreckons.leaving id)⟩

/-- A move that is no step of the run tells its worker nothing, and leaves its threads where they are. -/
theorem Move.abides (hn : Move m n) (hm : Possible m) (hid : id < m.size) (hacts : ∀ side, ¬Acts id side m n) :
    (n.run id).gathering = (m.run id).gathering ∧ (n.run id).workerCancelled = (m.run id).workerCancelled ∧
      ∀ side, n.thread id side = m.thread id side := by
  cases hn.share hm.sound hid with
  | step side ready hact => exact absurd hact (hacts side)
  | interrupted ready hact => exact absurd hact (hacts .worker)
  | rested main worker ready hrun hdesk hthreads =>
    rw [hrun]
    exact ⟨rfl, rfl, hthreads⟩
  | served service ready howner hrun hdesk hthreads =>
    have hidles := (m.run id).stepService_idles { m.desk with ready } service
    rw [hrun]
    exact ⟨hidles.gathering, hidles.workerCancelled, hthreads⟩
  | cancelled hrests hrun hdesk hthreads =>
    rw [hrun]
    exact ⟨rfl, rfl, hthreads⟩
  | aside hrun hthreads =>
    rw [hrun]
    exact ⟨rfl, rfl, hthreads⟩

/-- A worker that goes on has been told nothing, or has just heard it. -/
theorem Acts.untold (hacts : Acts id .worker m n) (hm : Possible m) (hid : id < m.size) (hheard : Heard id m) :
    (n.run id).workerCancelled = false := by
  cases hafter : (n.run id).workerCancelled with
  | false => rfl
  | true =>
    obtain ⟨d, s, -, hat, hspends, -, -⟩ := hacts.spends hm hid hheard
    rw [hat.run] at hafter
    have hbefore : (m.run id).workerCancelled = true := by
      rcases hspends.told hafter with hbefore | ⟨hside, -⟩
      · exact hbefore
      · cases hside
    cases hacts with
    | @first w ready hpop =>
      have hrun := (at_within ((w.dequeued ready).setRun id default) id .worker
        ((w.run id).firstStep (w.dequeued ready).desk .worker)).run
      have hbefore : (w.run id).workerCancelled = true := hbefore
      rw [← hat.run, hrun, Run.firstStep, if_pos hbefore, Run.interruptWorker_told] at hafter
      exact hafter.symm
    | @step w s hpace => exact absurd rfl ((hheard hbefore).2 w s)

theorem Heard.move (h : Heard id m) (hm : Possible m) (hid : id < m.size) (hn : Move m n) : Heard id n := by
  by_cases hworker : Acts id .worker m n
  · intro htold
    rw [hworker.untold hm hid h] at htold
    cases htold
  have haside (w : World) (s : Step) : n ≠ within w id .worker s := by
    rintro rfl
    exact hworker hn.acts_of_within
  intro htold
  refine ⟨?_, haside⟩
  by_cases hmain : Acts id .main m n
  · obtain ⟨d, s, -, hat, hspends, -, -⟩ := hmain.spends hm hid h
    obtain ⟨-, -, hthread⟩ := hmain.main_step hm.sound
    rw [hthread]
    rw [hat.run] at htold
    rcases hspends.told htold with hbefore | ⟨-, hgoing⟩
    · exact (h hbefore).1
    · rw [hmain.worker_stored]
      exact hgoing
  · have hnone (side : Side) : ¬Acts id side m n := by
      cases side with
      | main => exact hmain
      | worker => exact hworker
    obtain ⟨-, hsame, hthreads⟩ := hn.abides hm hid hnone
    rw [hthreads]
    exact (h (hsame ▸ htold)).1

theorem Move.load_le (hn : Move m n) (hm : Possible m) (hheard : ∀ id, id < m.size → Heard id m) (hid : id < m.size) :
    n.load id ≤ m.load id := by
  by_cases hacts : ∃ side, Acts id side m n
  · obtain ⟨side, hacts⟩ := hacts
    exact hacts.load_le hm hid (hheard id hid)
  · have hnone (side : Side) : ¬Acts id side m n := fun hact => hacts ⟨side, hact⟩
    obtain ⟨hgathering, -, hthreads⟩ := hn.abides hm hid hnone
    have hsummons := (hn.stays hm hheard hnone).summons hid
    unfold load
    rw [Run.gathers_eq hgathering, hthreads, hthreads]
    omega

/-- A run that is there after a move was there before, or has come from outside. -/
theorem Move.old_or_new (hn : Move m n) (hid : id < n.size) : id < m.size ∨
    ∃ w w', m = resting w ∧ n = resting w' ∧ w.Driven w' ∧ w.runs.size ≤ id := by
  have hold (h : n.size = m.size) : id < m.size := h ▸ hid
  cases hn with
  | reorder _ => exact .inl (hold rfl)
  | next hn =>
    cases hn with
    | @driven w w' hdriven =>
      rcases Nat.lt_or_ge id w.runs.size with hlt | hge
      · exact .inl hlt
      · exact .inr ⟨w, w', rfl, rfl, hdriven, hge⟩
    | waited _ _ => exact .inl (hold rfl)
    | @entry w entry ready _ hentry => exact .inl (hold (World.size_advance (w.dequeued ready) hentry))
    | thread _ => exact .inl (hold (World.size_setRun _ _ _))
    | step _ => exact .inl (hold rfl)
    | rest _ => exact .inl (hold ((congrArg Array.size (World.runs_rest _ _ _ _)).trans (World.size_setRun _ _ _)))

/-- What a main thread may do: a program has one way to go on, or has finished; other sources have none. -/
structure Rightful (id : RunId) (m : Moment) : Prop where
  heard : Heard id m
  load : m.load id ≤ if (m.run id).program.isSome = true then 1 else 0

/-- A run that has just come, and may have been summoned for its first step. -/
theorem rightful_new {w : World} {r : Run} (hrun : w.run id = r) (hmain : r.main = {})
    (hwaits : r.gathering = false ∧ r.workerCancelled = false)
    (hsummons : w.desk.summons id ≤ if r.program.isSome = true then 1 else 0) : Rightful id (resting w) := by
  refine ⟨fun htold => ?_, ?_⟩
  · have htold : (w.run id).workerCancelled = true := htold
    rw [hrun, hwaits.2] at htold
    cases htold
  · have hgathers (worker : Thread) : r.gathers worker = 0 := by simp [Run.gathers, hwaits.1]
    have hthread : (resting w).thread id .main = {} := by
      change (w.run id).main = {}
      rw [hrun, hmain]
    have hgoing : ({} : Thread).control.hasFinished = false := rfl
    rw [load, hthread, hgoing, show (resting w).run id = r from hrun, hgathers]
    exact hsummons

theorem Possible.rightful (hm : Possible m) (hid : id < m.size) : Rightful id m := by
  -- A run of before keeps its account over the move. A run that the move adds has not been summoned before, and is by its
  -- start at most once.
  induction hm generalizing id with
  | fresh host config holds hbus => exact absurd hid (Nat.not_lt_zero id)
  | @move m n hm hn ih =>
    rcases hn.old_or_new hid with hold | ⟨w, w', rfl, rfl, hdriven, hnew⟩
    · have hbefore := ih hold
      refine ⟨hbefore.heard.move hm hold hn, ?_⟩
      rw [(hn.terms hm hold).program]
      exact Nat.le_trans (hn.load_le hm (fun id hid => (ih hid).heard) hold) hbefore.load
    · have hmain := (hn.unbegun hnew hid).1.main
      have hnone : w.desk.summons id = 0 := hm.orderly.desk.summons_new hnew
      have hpushed {r : Run} (hruns : w'.runs = w.runs.push r) : id = w.runs.size ∧ w'.run id = r := by
        have hsize : id < (w.runs.push r).size := hruns ▸ hid
        rw [Array.size_push] at hsize
        obtain rfl : id = w.runs.size := Nat.le_antisymm (Nat.le_of_lt_succ hsize) hnew
        exact ⟨rfl, by simp [World.run, hruns]⟩
      cases hdriven.entered with
      | same hsize => exact absurd (hsize ▸ hid) (Nat.not_lt.2 hnew)
      | refused r hruns hwaits hprogram heven =>
        obtain ⟨-, hrun⟩ := hpushed hruns
        apply rightful_new hrun (hrun ▸ hmain) hwaits
        rw [heven.summons, hnone]
        exact Nat.zero_le _
      | begun r hruns hwaits hprogram hrings =>
        obtain ⟨rfl, hrun⟩ := hpushed hruns
        apply rightful_new hrun (hrun ▸ hmain) hwaits
        apply Nat.le_of_eq
        rw [hrings.self, hnone, if_pos hprogram]

theorem Possible.thread_absent (hm : Possible m) (hid : m.size ≤ id) (side : Side) : m.thread id side = {} := by
  have habsent {w : World} (hid : w.runs.size ≤ id) : (w.run id).thread side = {} := by
    rw [World.run, Array.getD_eq_getD_getElem?, Array.getElem?_eq_none hid]
    cases side <;> rfl
  cases m with
  | resting w => exact habsent hid
  | within w active working s =>
    have hactive : active < w.runs.size := hm.orderly.active active rfl
    have hne : id ≠ active := Ne.symm (Nat.ne_of_lt (Nat.lt_of_lt_of_le hactive hid))
    simp only [Moment.thread, if_neg hne]
    exact habsent hid

theorem Acts.going (hacts : Acts id .main m n) (hm : Possible m) : (m.thread id .main).control.hasFinished = false := by
  have hid := hm.orderly.acting hacts
  obtain ⟨hheard, hload⟩ := hm.rightful hid
  obtain ⟨d, s, hturn, -⟩ := hacts.spends hm hid hheard
  have hsummons := hturn.summons id
  simp only [if_pos, Side.turns] at hsummons
  cases hfinished : (m.thread id .main).control.hasFinished with
  | false => rfl
  | true =>
    unfold load at hload
    rw [hfinished, if_pos rfl] at hload
    have hone : (if (m.run id).program.isSome = true then 1 else 0) ≤ 1 := by split <;> decide
    omega

/-- A step of the main thread that ends its run has the run leave. -/
theorem Acts.leaving_main (hacts : Acts id .main m n) (hm : Possible m) :
    n.leaving id = m.leaving id + if (n.thread id .main).control.hasFinished = true then 1 else 0 := by
  have hid := hm.orderly.acting hacts
  obtain ⟨d, s, hturn, hat, hspends, -, hbows⟩ := hacts.spends hm hid (hm.rightful hid).heard
  have hover : n.bows id = s.thread.control.hasFinished := by
    rw [hbows, ← hspends.ended]
    simp
  rw [leaving, hat.desk, hspends.farewells, hturn.leaving, hover, hat.thread]

theorem Acts.leaving_worker (hacts : Acts id .worker m n) (hm : Possible m) : n.leaving id = m.leaving id := by
  have hid := hm.orderly.acting hacts
  obtain ⟨d, s, hturn, hat, hspends, -, hbows⟩ := hacts.spends hm hid (hm.rightful hid).heard
  have hnever : n.bows id = false := by simp [hbows]
  rw [leaving, hat.desk, hspends.farewells, hturn.leaving, hnever]
  rfl

/-- A move that is none of the main thread does not let its run leave again. -/
theorem Move.leaving_cases (hn : Move m n) (hm : Possible m) (hmain : ¬Acts id .main m n) :
    n.leaving id = m.leaving id ∨ Forgets id m n := by
  by_cases hworker : Acts id .worker m n
  · exact .inl (hworker.leaving_worker hm)
  · have hnone (side : Side) : ¬Acts id side m n := by
      cases side with
      | main => exact hmain
      | worker => exact hworker
    exact (hn.stays hm (fun id hid => (hm.rightful hid).heard) hnone).leaving

/-- A run leaves the table of running scripts once, when it has finished. -/
theorem Possible.leaving_le (hm : Possible m) (id : RunId) :
    m.leaving id ≤ if (m.thread id .main).control.hasFinished = true then 1 else 0 := by
  induction hm with
  | fresh host config holds hbus => exact Nat.zero_le _
  | @move m n hm hn ih =>
    by_cases hmain : Acts id .main m n
    · rw [hmain.going hm] at ih
      apply Nat.le_of_eq
      rw [hmain.leaving_main hm, Nat.eq_zero_of_le_zero ih, Nat.zero_add]
    · have hless : n.leaving id ≤ m.leaving id := by
        rcases hn.leaving_cases hm hmain with hsame | hforgets
        · exact Nat.le_of_eq hsame
        · exact Nat.le_of_succ_le (Nat.le_of_eq hforgets.leaving)
      rcases Nat.lt_or_ge id m.size with hid | hid
      · obtain ⟨hthread, -⟩ := (hn.main_cases hm hid).resolve_left hmain
        rw [hthread]
        exact Nat.le_trans hless ih
      · rw [hm.thread_absent hid] at ih
        exact Nat.le_trans (Nat.le_trans hless ih) (Nat.zero_le _)

end Moment

end DeskScript
