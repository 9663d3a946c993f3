import DeskScript.Proofs.Machine.Interleaving
import DeskScript.Proofs.Machine.Starvation

set_option autoImplicit false

/-!
# Handlers and the main thread exclude each other

The governor tells by one flag whether a handler is busy. In every interleaving the flag says just that: it is down while
the body of a handler is active and not suspended on a collaborator. So the main thread, which looks at the flag last of
all, is given leave only when no handler is active, or the active one is suspended. Main statement:
`handlers_exclude_main`.
-/

namespace DeskScript

namespace Thread

def isSuspended : Thread → Bool
  | ⟨.resume .., frame :: _⟩ => frame.isCall
  | _ => false

theorem isSuspended_of_resume {t : Thread} {service : ServiceId} {releases : Bool} (hfits : t.Fits)
    (hsided : t.Sided .worker) (hcontrol : t.control = .resume service releases) : t.isSuspended = true := by
  obtain ⟨control, stack⟩ := t
  subst hcontrol
  cases stack with
  | nil => exact hfits.elim
  | cons frame rest =>
    have hof := hsided.frames frame List.mem_cons_self
    obtain ⟨hneed, -⟩ := hfits
    cases frame with
    | collaborator | requested => rfl
    | clearing | closing => cases hof
    | _ => cases hneed

theorem resume_of_isSuspended {t : Thread} (h : t.isSuspended = true) :
    ∃ service releases, t.control = .resume service releases := by
  obtain ⟨control, stack⟩ := t
  cases control with
  | resume service releases => exact ⟨service, releases, rfl⟩
  | _ => cases h

end Thread

theorem Stacked.exists_ground {need : Need} {stack : List Frame} (h : Stacked need stack) :
    ∃ frame ∈ stack, frame.isGround = true := by
  induction stack generalizing need with
  | nil => exact h.elim
  | cons frame rest ih =>
    obtain ⟨-, -, hbelow⟩ := h
    cases hgives : frame.gives with
    | none =>
      refine ⟨frame, List.mem_cons_self, ?_⟩
      cases frame <;> first | rfl | cases hgives
    | some given =>
      rw [hgives] at hbelow
      obtain ⟨ground, hmem, hground⟩ := ih hbelow
      exact ⟨ground, List.mem_cons_of_mem frame hmem, hground⟩

/-- A worker has nothing on its stack, or the body of a handler. -/
theorem Thread.handler_mem_iff {t : Thread} (hfits : t.Fits) (hsided : t.Sided .worker) :
    .handler ∈ t.stack ↔ t.stack ≠ [] := by
  constructor
  · intro hmem hempty
    rw [hempty] at hmem
    cases hmem
  · intro hne
    obtain ⟨need, hstacked⟩ := hfits.stacked hne
    obtain ⟨ground, hmem, hground⟩ := hstacked.exists_ground
    have hof := hsided.frames ground hmem
    cases ground with
    | handler => exact hmem
    | program | closing => cases hof
    | _ => cases hground

/-- A worker with a body is known to the governor, and where the flag is up it waits for a service. -/
structure Governor.Shows (g : Governor) (worker : Thread) : Prop where
  handling : worker.stack ≠ [] → g.handling = true
  idle : g.idle = true → worker.stack ≠ [] → ∃ service releases, worker.control = .resume service releases

theorem Governor.Shows.bare {g : Governor} {control : Control} : g.Shows ⟨control, []⟩ :=
  ⟨fun hne => absurd rfl hne, fun _ hne => absurd rfl hne⟩

namespace Run

variable {r : Run} {d : Desk} {t : Thread} {stack : List Frame}

theorem Shows.go {g g' : Governor} {worker worker' : Thread} (h : g.Shows worker) (hne : worker.stack ≠ [])
    (hinner : ∀ service releases, worker.control ≠ .resume service releases) (hhandling : g'.handling = g.handling)
    (hidle : g'.idle = g.idle) : g'.Shows worker' := by
  refine ⟨fun _ => hhandling.trans (h.handling hne), fun hup _ => ?_⟩
  obtain ⟨service, releases, hcontrol⟩ := h.idle (hidle.symm.trans hup) hne
  exact absurd hcontrol (hinner service releases)

theorem checkpoint_flags (r : Run) (d : Desk) (stack : List Frame) :
    (r.checkpoint d stack).run.governor.handling = r.governor.handling ∧
      (r.checkpoint d stack).run.governor.idle = r.governor.idle := by
  unfold checkpoint
  split
  · exact ⟨rfl, rfl⟩
  · dsimp only
    split <;> exact ⟨rfl, rfl⟩

theorem request_shows (work : Work) (h : r.governor.Shows ⟨.request work, stack⟩) (hne : stack ≠ []) :
    (r.request d .worker work stack).run.governor.Shows (r.request d .worker work stack).thread := by
  unfold request
  split
  · exact Shows.go h hne nofun rfl rfl
  · obtain ⟨waiters, hgovernor⟩ := becomeIdle_governor { r with governor := { r.governor with
      pending := r.governor.pending ++ [(d.open_ r.id .worker work).1] } } (d.open_ r.id .worker work).2
    refine ⟨fun _ => ?_, fun _ _ => ⟨_, _, rfl⟩⟩
    exact (congrArg Governor.handling hgovernor).trans (h.handling hne)

theorem resume_shows {service : ServiceId} (interrupted : Bool) (h : r.governor.Shows ⟨.resume service true, stack⟩)
    (hne : stack ≠ []) :
    (r.resume d service true interrupted stack).run.governor.Shows (r.resume d service true interrupted stack).thread := by
  have hhandling : r.governor.handling = true := h.handling hne
  have hdown (r' : Run) (hgovernor : r'.governor = { r.governor with
      pending := r.governor.pending.erase service, idle := r.governor.idle && !(true && r.governor.handling) })
      (t : Thread) : r'.governor.Shows t := by
    rw [hgovernor]
    refine ⟨fun _ => hhandling, fun hup => ?_⟩
    change (r.governor.idle && !(true && r.governor.handling)) = true at hup
    rw [hhandling, Bool.and_true, Bool.not_true, Bool.and_false] at hup
    cases hup
  simp only [resume]
  split
  · exact hdown _ rfl _
  · split <;> exact hdown _ rfl _

theorem leaveHandler_stack_nil (r : Run) (d : Desk) (result : Except Raised Unit) (g : Governor) :
    g.Shows (r.leaveHandler d result).thread := by
  obtain ⟨r', d', -, heq | heq⟩ := r.leaveHandler_judged d result
  · rw [heq]
    exact .bare
  · rw [heq]
    exact .bare

theorem receive_shows (r : Run) (d : Desk) : (r.receive d).run.governor.Shows (r.receive d).thread := by
  simp only [receive]
  split
  · exact .bare
  · split
    · exact .bare
    · split
      · exact ⟨fun _ => rfl, fun hidle => absurd hidle Bool.false_ne_true⟩
      · exact ⟨fun _ => rfl, fun hidle => absurd hidle Bool.false_ne_true⟩

theorem step_worker_shows (hfits : t.Fits) (hsided : t.Sided .worker) (h : r.governor.Shows t) :
    (step .worker r d t).run.governor.Shows (step .worker r d t).thread := by
  have hne (hinner : t.control.atRest = false) : t.stack ≠ [] := hfits.stack_ne_nil hinner
  cases hsided.turn hfits with
  | computes hcomputes =>
    obtain ⟨hbody, hcontrol⟩ := hfits.of_computes hcomputes
    have hgovernor := (@step_calm .worker r d t hcomputes).alike.governor
    exact Shows.go h hbody hcontrol (congrArg Governor.handling hgovernor) (congrArg Governor.idle hgovernor)
  | checkpoint stack =>
    obtain ⟨hhandling, hidle⟩ := r.checkpoint_flags d stack
    exact Shows.go h (hne rfl) nofun hhandling hidle
  | request work stack => exact request_shows work h (hne rfl)
  | resume service stack => exact resume_shows false h fun hempty => by subst hempty; exact hfits
  | handled signal => exact leaveHandler_stack_nil r d _ _
  | failed e => exact leaveHandler_stack_nil r d _ _
  | start => exact .bare
  | receive => exact receive_shows r d
  | finished => exact .bare

theorem interruptWorker_shows (hrested : t.Rested) (hfits : t.Fits) (h : r.governor.Shows t) :
    (r.interruptWorker d t).run.governor.Shows (r.interruptWorker d t).thread := by
  cases hrested with
  | resume service stack =>
    refine @resume_shows { r with workerCancelled := false } d stack service true h fun hempty => ?_
    subst hempty
    exact hfits
  | recheck stack =>
    refine Shows.go h (fun hempty => ?_) nofun ?_ ?_
    · subst hempty
      exact hfits
    · rfl
    · rfl
  | @bare control hresume hrecheck =>
    simp only [interruptWorker]
    exact .bare

/-- The main thread leaves the flags alone, and leave is given only while the flag is up. -/
theorem step_main_flags (hfits : t.Fits) (hsided : t.Sided .main) :
    (step .main r d t).run.governor.handling = r.governor.handling ∧
      (step .main r d t).run.governor.idle = r.governor.idle ∧
      ((step .main r d t).thread.control = .passed → r.governor.idle = true) := by
  have hclose (ending : Ending) : (r.close d ending).run.governor.handling = r.governor.handling ∧
      (r.close d ending).run.governor.idle = r.governor.idle ∧
      ((r.close d ending).thread.control = .passed → r.governor.idle = true) := by
    rw [close_governor]
    exact ⟨rfl, rfl, by rintro ⟨⟩⟩
  cases hsided.turn hfits with
  | computes hcomputes =>
    have hcalm := @step_calm .main r d t hcomputes
    refine ⟨congrArg Governor.handling hcalm.alike.governor, congrArg Governor.idle hcalm.alike.governor, fun hpassed => ?_⟩
    have hgrants := hcalm.gate (by rw [hpassed]; rfl)
    rw [hpassed] at hgrants
    generalize t.control = control at hgrants
    cases hgrants with
    | passed hclear => exact hclear
  | checkpoint stack =>
    obtain ⟨hhandling, hidle⟩ := r.checkpoint_flags d stack
    refine ⟨hhandling, hidle, ?_⟩
    simp only [step, checkpoint]
    split
    · rintro ⟨⟩
    · split <;> rintro ⟨⟩
  | request work stack =>
    simp only [step, request]
    split <;> exact ⟨rfl, rfl, by rintro ⟨⟩⟩
  | resume service stack =>
    simp only [step, resume]
    split
    · exact ⟨rfl, Bool.and_true _, by rintro ⟨⟩⟩
    · split <;> exact ⟨rfl, Bool.and_true _, by rintro ⟨⟩⟩
  | ran signal => exact ⟨rfl, rfl, by rintro ⟨⟩⟩
  | stopped e hframe =>
    rcases hframe with rfl | ⟨v, rfl⟩
    · exact hclose _
    · exact hclose _
  | joined result v =>
    simp only [step, reply]
    split
    · exact hclose _
    · exact hclose _
  | start =>
    exact ⟨congrArg Governor.handling (r.hoist_governor _), congrArg Governor.idle (r.hoist_governor _), by rintro ⟨⟩⟩
  | settle ending => exact ⟨rfl, rfl, by rintro ⟨⟩⟩
  | finished => exact ⟨rfl, rfl, by rintro ⟨⟩⟩

end Run

namespace Moment

variable {m n : Moment} {id : RunId}

/-- What the governor shows, and that the main thread has leave only while the flag is up. -/
structure Guarded (id : RunId) (m : Moment) : Prop where
  shows_ : (m.run id).governor.Shows (m.thread id .worker)
  passed : (m.thread id .main).control = .passed → (m.run id).governor.idle = true

theorem Guarded.same (h : Guarded id m) (hhandling : (n.run id).governor.handling = (m.run id).governor.handling)
    (hidle : (n.run id).governor.idle = (m.run id).governor.idle)
    (hthreads : ∀ side, n.thread id side = m.thread id side) : Guarded id n := by
  refine ⟨⟨fun hne => ?_, fun hup hne => ?_⟩, fun hpassed => ?_⟩
  · rw [hthreads] at hne
    exact hhandling.trans (h.shows_.handling hne)
  · rw [hthreads] at hne ⊢
    exact h.shows_.idle (hidle.symm.trans hup) hne
  · rw [hthreads] at hpassed
    exact hidle.trans (h.passed hpassed)

theorem Share.guarded (hs : Share id m n) (hm : Possible m) (hid : id < m.size) (h : Guarded id m) : Guarded id n := by
  have hfits (side : Side) : (m.thread id side).Fits := hm.sound.thread id side
  have hsided (side : Side) : (m.thread id side).Sided side := hm.attended.sided hid side
  -- The main thread rests while the worker goes on, and has no leave then.
  have hresting (hacts : Acts id .worker m n) (hother : n.thread id .main = m.thread id .main) :
      (n.thread id .main).control ≠ .passed := by
    have hrest : (m.thread id .main).control.atRest = true := hacts.other_rests hm.sound
    intro hpassed
    rw [hother] at hpassed
    rw [hpassed] at hrest
    cases hrest
  cases hs with
  | step side ready hacts hat hother =>
    cases side with
    | main =>
      obtain ⟨hhandling, hidle, hpassed⟩ :=
        @Run.step_main_flags (m.run id) { m.desk with ready } _ (hfits .main) (hsided .main)
      have hworker : n.thread id .worker = m.thread id .worker := hother
      refine ⟨⟨fun hne => ?_, fun hup hne => ?_⟩, fun hcontrol => ?_⟩
      · rw [hworker] at hne
        rw [hat.run]
        exact hhandling.trans (h.shows_.handling hne)
      · rw [hworker] at hne ⊢
        rw [hat.run] at hup
        exact h.shows_.idle (hidle.symm.trans hup) hne
      · rw [hat.thread] at hcontrol
        rw [hat.run]
        exact hidle.trans (hpassed hcontrol)
    | worker =>
      refine ⟨?_, fun hpassed => absurd hpassed (hresting hacts hother)⟩
      rw [hat.run, hat.thread]
      exact Run.step_worker_shows (hfits .worker) (hsided .worker) h.shows_
  | interrupted ready hacts hrest hat hother =>
    refine ⟨?_, fun hpassed => absurd hpassed (hresting hacts hother)⟩
    rw [hat.run, hat.thread]
    exact Run.interruptWorker_shows ((hsided .worker).rested (hfits .worker) hrest) (hfits .worker) h.shows_
  | rested main worker ready hrun hdesk hthreads => exact h.same (by rw [hrun]) (by rw [hrun]) hthreads
  | served service ready howner hrun hdesk hthreads =>
    obtain ⟨waiters, hgovernor, -⟩ := (m.run id).stepService_governor { m.desk with ready } service
    exact h.same (by rw [hrun, hgovernor]) (by rw [hrun, hgovernor]) hthreads
  | cancelled _ hrun hdesk hthreads => exact h.same (by rw [hrun]; rfl) (by rw [hrun]; rfl) hthreads
  | aside hrun hthreads => exact h.same (by rw [hrun]) (by rw [hrun]) hthreads

theorem Possible.guarded (hm : Possible m) (hid : id < m.size) : Guarded id m := by
  refine hm.run_induction hid (fun hunbegun hthreads => ?_) fun hm hid hn h => (hn.share hm.sound hid).guarded hm hid h
  refine ⟨?_, fun hpassed => ?_⟩
  · rw [hthreads]
    exact .bare
  · rw [hthreads] at hpassed
    cases hpassed

theorem Possible.handler_mem_iff (hm : Possible m) (hid : id < m.size) :
    .handler ∈ (m.thread id .worker).stack ↔ (m.thread id .worker).stack ≠ [] :=
  Thread.handler_mem_iff (hm.sound.thread id .worker) (hm.attended.sided hid .worker)

/-- The flag is down just while the body of a handler is active and not suspended. -/
theorem Possible.idle_iff (hm : Possible m) (hid : id < m.size) : (m.run id).governor.idle = false ↔
    .handler ∈ (m.thread id .worker).stack ∧ (m.thread id .worker).isSuspended = false := by
  have hfits := hm.sound.thread id .worker
  have hsided := hm.attended.sided hid .worker
  rw [hm.handler_mem_iff hid]
  constructor
  · intro hdown
    obtain ⟨hne, hresume⟩ := hm.attended.busy hid hdown
    refine ⟨hne, Bool.eq_false_iff.2 fun hsuspended => ?_⟩
    obtain ⟨service, releases, hcontrol⟩ := Thread.resume_of_isSuspended hsuspended
    exact hresume service releases hcontrol
  · rintro ⟨hne, hactive⟩
    refine Bool.eq_false_iff.2 fun hup => ?_
    obtain ⟨service, releases, hcontrol⟩ := (hm.guarded hid).shows_.idle hup hne
    exact Bool.eq_false_iff.1 hactive (Thread.isSuspended_of_resume hfits hsided hcontrol)

theorem Possible.no_handler_on_main (hm : Possible m) (hid : id < m.size) : .handler ∉ (m.thread id .main).stack := by
  intro hmem
  exact absurd ((hm.attended.sided hid .main).frames _ hmem) nofun

end Moment

/-- In every interleaving of the threads of a run: when the main thread has leave to begin a statement or a turn of a loop,
every handler that is active is suspended on a collaborator; and the governor's flag is down just while a handler is active
and not suspended. -/
theorem handlers_exclude_main {m : Moment} (hm : m.Possible) {id : RunId} (hid : id < m.size) :
    ((m.thread id .main).control = .passed →
      ∀ side, .handler ∈ (m.thread id side).stack → (m.thread id side).isSuspended = true) ∧
    ((m.run id).governor.idle = false ↔
      ∃ side, .handler ∈ (m.thread id side).stack ∧ (m.thread id side).isSuspended = false) := by
  have hmain := hm.no_handler_on_main hid
  constructor
  · intro hpassed side hactive
    cases side with
    | main => exact absurd hactive hmain
    | worker =>
      have hup := (hm.guarded hid).passed hpassed
      rw [← Bool.not_eq_false]
      intro hrunning
      rw [(hm.idle_iff hid).2 ⟨hactive, hrunning⟩] at hup
      cases hup
  · rw [hm.idle_iff hid]
    constructor
    · intro hbusy
      exact ⟨.worker, hbusy⟩
    · rintro ⟨side, hactive, hrunning⟩
      cases side with
      | main => exact absurd hactive hmain
      | worker => exact ⟨hactive, hrunning⟩

namespace Moment

def isNext (id : RunId) (side : Side) : Moment → Bool
  | resting w =>
    match w.desk.ready.pop? with
    | some (.thread active working, _) => active == id && working == side
    | _ => false
  | within _ active working s => active == id && working == side && s.pace == .go

theorem follow_acts {m : Moment} {id : RunId} {side : Side} (h : m.isNext id side = true) : Acts id side m m.follow := by
  cases m with
  | resting w =>
    simp only [isNext] at h
    split at h
    · rename_i hpop
      simp only [Bool.and_eq_true, beq_iff_eq] at h
      obtain ⟨rfl, rfl⟩ := h
      simp only [follow, hpop]
      exact .first hpop
    · cases h
  | within w active working s =>
    simp only [isNext, Bool.and_eq_true, beq_iff_eq] at h
    obtain ⟨⟨rfl, rfl⟩, hpace⟩ := h
    simp only [follow, if_pos hpace]
    exact .step hpace

theorem moves_after (m : Moment) (k : Nat) : Moves m (m.after k) := by
  induction k with
  | zero => exact .refl m
  | succ k ih => exact ih.move (.next (follow_next _))

end Moment

def Control.hasLeave : Control → Bool
  | .passed => true
  | _ => false

theorem Control.passed_of_hasLeave {control : Control} (h : control.hasLeave = true) : control = .passed := by
  cases control with
  | passed => rfl
  | _ => cases h

namespace Asking

/-- The tokens of `on "t" {confirm "?" into $x}`, `emit "t"` and `print "a"`, without places. -/
def tokens : List Token :=
  [.keyword .on, .text "t", .symbol .leftBrace, .keyword .confirm, .text "?", .keyword .into, .var "x",
    .symbol .rightBrace, .newline, .keyword .emit, .text "t", .newline, .keyword .print, .text "a", .finish].map
    fun content => ⟨content, "", default⟩

def body : Block Stmt := ⟨default, [.command default (.confirm (.literal default (.text "?")) "x")]⟩

def program : Program := ⟨default, [.on default Again.event body, Again.emit, Again.print], #[]⟩

def world : World :=
  ({ desk := { host := { dialogs := { mode := .pending } } } } : World).launch "script" program { yieldInterval := 1 } 0 {}
    .root

theorem world_reachable : (Moment.resting world).Reachable :=
  Moment.launched_reachable tokens rfl (by simp)

def moment : Moment := (Moment.resting world).after 50

theorem moment_possible : moment.Possible := by
  have hreachable := Moment.after_reachable world_reachable 50
  exact hreachable.possible

theorem moment_passed : (moment.thread 0 .main).control = .passed := Control.passed_of_hasLeave (by decide +kernel)

theorem moment_size : 0 < moment.size := by decide +kernel

theorem moment_active : .handler ∈ (moment.thread 0 .worker).stack := by
  have hsome : (moment.thread 0 .worker).stack.isEmpty = false := by decide +kernel
  refine (moment_possible.handler_mem_iff moment_size).2 fun hempty => ?_
  rw [hempty] at hsome
  cases hsome

end Asking

/-- The handler of this program is suspended when the main thread is given leave. -/
theorem handlers_exclude_main_asking : Asking.moment.Possible ∧ 0 < Asking.moment.size ∧
    (Asking.moment.thread 0 .main).control = .passed ∧ .handler ∈ (Asking.moment.thread 0 .worker).stack ∧
    (Asking.moment.thread 0 .worker).isSuspended = true :=
  ⟨Asking.moment_possible, Asking.moment_size, Asking.moment_passed, Asking.moment_active,
    (handlers_exclude_main Asking.moment_possible Asking.moment_size).1 Asking.moment_passed .worker Asking.moment_active⟩

end DeskScript
