import DeskScript.Proofs.Machine.Moves
import DeskScript.Proofs.Machine.Turns

set_option autoImplicit false

/-!
# Interleavings

The queue of a world is served in order. Here it may also be reordered while the world rests, so that whatever is ready may
be the next to go on: `Possible` moments are those of every interleaving of all threads and services at the places where
they wait. `Move.share` says what one move means for one run; an invariant of runs follows by `Possible.run_induction`,
and what moves keep of a run by `Moves.run_induction`.
-/

namespace DeskScript

namespace Moment

inductive Move : Moment → Moment → Prop
  | next {m n : Moment} (h : Next m n) : Move m n
  | reorder {w : World} {ready : Queue Ready} (h : w.desk.ready.toList.Perm ready.toList) :
      Move (resting w) (resting (w.dequeued ready))

inductive Moves : Moment → Moment → Prop
  | refl (m : Moment) : Moves m m
  | move {m n o : Moment} (h : Moves m n) (hn : Move n o) : Moves m o

/-- A moment that a world without runs, and without handlers on its bus, may come to in some order. -/
inductive Possible : Moment → Prop
  | fresh (host : Host) (config : Config) (holds : List Frame → Bool)
      (h : ∀ s ∈ host.bus.subscriptions, ∀ run body scope, s.listener ≠ .handler run body scope) :
      Possible (resting { desk := { host }, config, holds })
  | move {m n : Moment} (h : Possible m) (hn : Move m n) : Possible n

variable {m n o : Moment} {id : RunId} {side : Side}

theorem Reachable.possible (h : Reachable m) : Possible m := by
  induction h with
  | fresh host config holds hbus => exact .fresh host config holds hbus
  | next _ hn ih => exact ih.move (.next hn)

theorem Possible.moves (h : Possible m) (hn : Moves m n) : Possible n := by
  induction hn with
  | refl => exact h
  | move _ hn ih => exact ih.move hn

theorem Moves.trans (h : Moves m n) (h' : Moves n o) : Moves m o := by
  induction h' with
  | refl => exact h
  | move _ hn ih => exact ih.move hn

theorem attended_reorder {w : World} {ready : Queue Ready} (h : w.Attended)
    (hperm : w.desk.ready.toList.Perm ready.toList) : (w.dequeued ready).Attended := by
  refine ⟨⟨fun service hsize hactive => ?_, h.desk.idle⟩, fun id hid => ?_⟩
  · exact hperm.mem_iff.1 (h.desk.active service hsize hactive)
  · have hrun := h.runs id hid
    refine ⟨hrun.named, hrun.sided, fun side => ?_, hrun.keeps, hrun.busy⟩
    refine ⟨fun hrecheck => hperm.mem_iff.1 ((hrun.waits side).recheck hrecheck), fun service releases hcontrol => ?_⟩
    obtain ⟨hsize, howner, hside, hwork, hdone⟩ := (hrun.waits side).resume service releases hcontrol
    exact ⟨hsize, howner, hside, hwork, fun result hresult => hperm.mem_iff.1 (hdone result hresult)⟩

theorem Sound.move (h : m.Sound) (hn : Move m n) : n.Sound := by
  cases hn with
  | next hn => exact h.next hn
  | reorder hperm => exact World.Sound.dequeued h _

theorem Attended.move (h : m.Attended) (hsound : m.Sound) (hn : Move m n) : n.Attended := by
  cases hn with
  | next hn => exact h.next hsound hn
  | reorder hperm => exact attended_reorder h hperm

theorem Possible.sound (h : Possible m) : m.Sound := by
  induction h with
  | fresh host config holds hbus => exact (Reachable.fresh host config holds hbus).sound
  | move _ hn ih => exact ih.move hn

theorem Possible.attended (h : Possible m) : m.Attended := by
  induction h with
  | fresh host config holds hbus => exact (Reachable.fresh host config holds hbus).attended
  | move hm hn ih => exact ih.move hm.sound hn

theorem Move.size (hn : Move m n) : m.size ≤ n.size := by
  cases hn with
  | next hn => exact hn.size
  | reorder hperm => exact Nat.le_refl _

theorem Moves.size (hn : Moves m n) : m.size ≤ n.size := by
  induction hn with
  | refl => exact Nat.le_refl _
  | move _ hn ih => exact Nat.le_trans ih hn.size

end Moment

structure Run.Unbegun (r : Run) : Prop where
  governor : r.governor = {}
  main : r.main = {}
  worker : r.worker = {}
  subscriptions : r.subscriptions = []
  ending : ∀ v, r.ending ≠ some (.completed v)
  unended : r.program.isSome = true → r.ending = none
  callDepth : r.callDepth = 0
  functions : r.functions = []

namespace World

variable {w w' : World} {id : RunId}

theorem declareAll_unbegun {r r' : Run} {bindings : List (String × Plain)} (h : declareAll r bindings = .ok r')
    (hr : r.Unbegun) : r'.Unbegun := by
  apply declareAll_induction h _ hr
  intro r heap name v hr
  exact ⟨hr.governor, hr.main, hr.worker, hr.subscriptions, hr.ending, hr.unended, hr.callDepth, hr.functions⟩

/-- The runs of a world after it was driven from outside, unless one of them was cancelled. -/
inductive Grown (w w' : World) : Prop
  | same (h : w'.runs = w.runs)
  | added (r : Run) (hr : r.Unbegun) (h : w'.runs = w.runs.push r)

theorem start_grown (w : World) (l : Launch) : w.Grown (w.start l).2 := by
  obtain ⟨hruns, -⟩ := w.nameFor_same l.name
  simp only [World.start]
  generalize w.nameFor l.name = named at hruns ⊢
  split
  · split
    · refine .added _ ?_ (congrArg (Array.push · _) hruns)
      exact ⟨rfl, rfl, rfl, rfl, by simp, by simp, rfl, rfl⟩
    · refine .added _ ?_ (congrArg (Array.push · _) hruns)
      exact ⟨rfl, rfl, rfl, rfl, by simp, by simp, rfl, rfl⟩
  · split
    · exact .same hruns
    · rename_i r hdeclared
      exact .added r (declareAll_unbegun hdeclared ⟨rfl, rfl, rfl, rfl, by simp, by simp, rfl, rfl⟩) (congrArg (Array.push · _) hruns)

theorem Driven.grown (h : w.Driven w') : w.Grown w' ∨ ∃ id, w' = w.cancel id := by
  cases h with
  | start l => exact .inl (start_grown w l)
  | launch name hparse limits startedAt heap scopes =>
    refine .inl (.added _ ?_ rfl)
    exact ⟨rfl, rfl, rfl, rfl, by simp, by simp, rfl, rfl⟩
  | cancel id => exact .inr ⟨id, rfl⟩
  | publish | answer | wait | turn | configure | listen | unlisten | host => exact .inl (.same rfl)

theorem Grown.run_eq (h : w.Grown w') (hid : id < w.runs.size) : w'.run id = w.run id := by
  cases h with
  | same h => rw [run, run, h]
  | added r hr h => simp only [run, h, Array.getD_eq_getD_getElem?, Array.getElem?_push, Nat.ne_of_lt hid, if_false]

theorem Grown.unbegun (h : w.Grown w') (hold : w.runs.size ≤ id) (hnew : id < w'.runs.size) : (w'.run id).Unbegun := by
  cases h with
  | same h => exact absurd (h ▸ hnew) (Nat.not_lt.2 hold)
  | added r hr h =>
    rw [h, Array.size_push] at hnew
    obtain rfl : id = w.runs.size := Nat.le_antisymm (Nat.le_of_lt_succ hnew) hold
    rw [run, h, Array.getD_eq_getD_getElem?, Array.getElem?_push, if_pos rfl]
    exact hr

theorem size_cancel (w : World) (id : RunId) : (w.cancel id).runs.size = w.runs.size := by
  unfold cancel
  dsimp only
  split
  · rfl
  · exact size_setRun _ _ _

/-- The run that is cancelled is stopped, and the others are as they were. -/
theorem run_cancel (w : World) (other : RunId) (hid : id < w.runs.size) :
    ((w.cancel other).run id = w.run id) ∨
      (w.cancel other).run id = (((w.run id).cancelled w.desk).1.revoke ((w.run id).cancelled w.desk).2).1 ∧
        (w.cancel other).desk = (((w.run id).cancelled w.desk).1.revoke ((w.run id).cancelled w.desk).2).2 := by
  simp only [cancel]
  split
  · exact .inl rfl
  · by_cases hsame : id = other
    · subst hsame
      exact .inr ⟨run_setRun_self { w with desk := _ } hid _, rfl⟩
    · exact .inl (run_setRun_ne _ hsame _)

theorem rest_desk (w : World) (id : RunId) (side : Side) (s : Step) : ∃ ready, (w.rest id side s).desk = { s.desk with ready } := by
  have hstored : ∃ ready, (s.store side).2 = { s.desk with ready } := by
    unfold Step.store
    dsimp only
    split
    · exact ⟨_, rfl⟩
    · exact ⟨s.desk.ready, rfl⟩
  obtain ⟨ready, hready⟩ := hstored
  unfold rest
  rw [hready]
  dsimp only
  split
  · simp only [concluded]
    split <;> exact ⟨_, rfl⟩
  · exact ⟨ready, rfl⟩

end World

/-- A service at two moments, one after the other: what is done stays so, and one that was interrupted comes to nothing. -/
structure Service.Later (s s' : Service) : Prop where
  run : s'.run = s.run
  side : s'.side = s.side
  work : s'.work = s.work
  cancelled : s.cancelled = true → s'.cancelled = true
  done : ∀ result, s.stage = .done result → s'.stage = .done result
  interrupted : s.cancelled = true → ∀ result, s'.stage = .done result → s.stage = .done result ∨ result = .interrupted

theorem Service.Later.refl (s : Service) : s.Later s := ⟨rfl, rfl, rfl, fun h => h, fun _ h => h, fun _ _ h => .inl h⟩

theorem Desk.Onward.later {d d' : Desk} (h : d.Onward d') {service : ServiceId} (hsize : service < d.services.size) :
    (d.service service).Later (d'.service service) := by
  obtain ⟨hrun, hside, hwork⟩ := h.owner service hsize
  have hstage (result : ServiceResult) :
      (d'.service service).stage = .done result ↔ (d.service service).stage = .done result := by
    cases h.stage service (Nat.lt_of_lt_of_le hsize h.size) with
    | same _ hsame => rw [hsame]
    | woken _ hparked _ hwoken _ =>
      rw [hparked, hwoken]
      exact ⟨nofun, nofun⟩
    | opened hnew _ _ => exact absurd hsize (Nat.not_lt.2 hnew)
  exact ⟨hrun, hside, hwork, h.cancelled service hsize, fun result => (hstage result).2,
    fun _ result hdone => .inl ((hstage result).1 hdone)⟩

theorem Run.stepService_later (r : Run) (d : Desk) (other : ServiceId) {service : ServiceId}
    (hsize : service < d.services.size) : (d.service service).Later ((r.stepService d other).2.service service) := by
  have hserves := r.stepService_serves d other
  by_cases hsame : service = other
  · subst hsame
    obtain ⟨hrun, hside, hwork⟩ := hserves.owner
    refine ⟨hrun, hside, hwork, fun hcancelled => hserves.cancelled.trans hcancelled, fun result hdone => ?_,
      fun hcancelled result hdone => ?_⟩
    · simp only [stepService, hdone]
    · cases hstage : (d.service service).stage with
      | done before =>
        simp only [stepService, hstage] at hdone
        exact .inl hdone
      | _ =>
        have hended : (r.stepService d service).2 = d.complete service .interrupted := by
          simp only [stepService, hcancelled, hstage]
        have hservice : ((d.complete service .interrupted).service service).stage = .done .interrupted := by
          change (({ d with services := d.services.modify service fun s => { s with stage := .done .interrupted } } :
            Desk).service service).stage = _
          rw [Desk.service_modify, if_pos ⟨rfl, hsize⟩]
        rw [hended, hservice] at hdone
        exact .inr (Stage.done.inj hdone).symm
  · rw [hserves.others service hsame]
    exact .refl _

namespace Moment

variable {m n : Moment}

/-- The desk goes onward, or one service goes one step. -/
theorem Move.desk (hn : Move m n) (hm : Possible m) : ∃ ready, Desk.Onward { m.desk with ready } n.desk ∨
    ∃ service, n.desk = ((m.run (m.desk.service service).run).stepService { m.desk with ready } service).2 := by
  cases hn with
  | @reorder w ready _ => exact ⟨ready, .inl (.refl _)⟩
  | next hn =>
    rcases hn.takes_or_onward hm.sound hm.attended with ⟨entry, htakes⟩ | honward
    · cases htakes with
      | @entry w entry ready hpop hthread =>
        refine ⟨ready, ?_⟩
        cases entry with
        | thread id side => exact absurd rfl (hthread id side)
        | service service => exact .inr ⟨service, rfl⟩
        | gathered _ => exact .inl ((w.dequeued ready).desk.enqueue_onward _)
        | forget _ | controller => exact .inl (.refl _)
      | @thread w id side ready hpop =>
        obtain ⟨name, hrun, -⟩ := World.Attended.anyRun hm.attended id
        refine ⟨ready, .inl ?_⟩
        exact (hrun.firstStep_attends (hm.sound.runs id) (World.Sound.dequeued hm.sound ready).desk side).desk
    · exact ⟨m.desk.ready, .inl honward⟩

theorem Move.service (hn : Move m n) (hm : Possible m) {service : ServiceId} (hsize : service < m.desk.services.size) :
    service < n.desk.services.size ∧ (m.desk.service service).Later (n.desk.service service) := by
  obtain ⟨ready, honward | ⟨other, hdesk⟩⟩ := hn.desk hm
  · exact ⟨Nat.lt_of_lt_of_le hsize honward.size, honward.later hsize⟩
  · rw [hdesk]
    have hserves := (m.run (m.desk.service other).run).stepService_serves { m.desk with ready } other
    exact ⟨Nat.lt_of_lt_of_eq hsize hserves.size.symm, Run.stepService_later _ { m.desk with ready } other hsize⟩

end Moment

namespace Moment

variable {m n o : Moment} {id : RunId} {side : Side}

inductive Acts (id : RunId) (side : Side) : Moment → Moment → Prop
  | first {w : World} {ready : Queue Ready} (hpop : w.desk.ready.pop? = some (.thread id side, ready)) :
      Acts id side (resting w) (within ((w.dequeued ready).setRun id default) id side
        ((w.run id).firstStep (w.dequeued ready).desk side))
  | step {w : World} {s : Step} (h : s.pace = .go) :
      Acts id side (within w id side s) (within w id side (Run.step side s.run s.desk s.thread))

theorem Attended.named (ha : m.Attended) (hid : id < m.size) : (m.run id).id = id := by
  cases m with
  | resting w => exact (ha.runs id hid).named
  | within w active working s =>
    obtain ⟨-, ⟨name, hs, hname⟩, hothers⟩ := ha
    simp only [Moment.run]
    split
    · rename_i hactive
      rw [hactive, ← hname (hactive ▸ hid)]
      exact hs.named
    · rename_i hactive
      exact (hothers id hid hactive).named

/-- While a thread makes a step, the other one of its run rests. -/
theorem Acts.other_rests (h : Acts id side m n) (hm : m.Sound) : (m.thread id side.other).control.atRest = true := by
  cases h with
  | first _ => exact (hm.runs id).rests side.other
  | step _ =>
    obtain ⟨-, -, -, hrest⟩ := hm
    have hside : side.other ≠ side := by cases side <;> nofun
    simpa only [Moment.thread, if_pos, if_neg hside] using hrest

theorem Acts.other_at_rest (h : Acts id side m n) (hn : n.Sound) : (n.thread id side.other).control.atRest = true := by
  have hside : side.other ≠ side := by cases side <;> nofun
  cases h with
  | first _ | step _ =>
    obtain ⟨-, -, -, hrest⟩ := hn
    simpa only [Moment.thread, if_pos, if_neg hside] using hrest

theorem Acts.move (h : Acts id side m n) : Move m n := by
  cases h with
  | first hpop => exact .next (.thread hpop)
  | step hpace => exact .next (.step hpace)

structure At (id : RunId) (side : Side) (s : Step) (n : Moment) : Prop where
  run : n.run id = s.run
  desk : n.desk = s.desk
  thread : n.thread id side = s.thread

theorem At.of_eq {s s' : Step} (h : n.At id side s) (hs : s = s') : n.At id side s' := hs ▸ h

theorem at_within (w : World) (id : RunId) (side : Side) (s : Step) : (within w id side s).At id side s :=
  ⟨if_pos rfl, rfl, (if_pos rfl).trans (if_pos rfl)⟩

/-- The thread goes one step, or its worker is interrupted where it rests. -/
theorem Acts.stride (h : Acts id side m n) (hm : m.Sound) :
    n.thread id side.other = m.thread id side.other ∧
    ∃ ready, ready.toList ⊆ m.desk.ready.toList ∧
      (n.At id side (Run.step side (m.run id) { m.desk with ready } (m.thread id side)) ∨
        side = .worker ∧ (m.thread id side).control.atRest = true ∧
          n.At id side ((m.run id).interruptWorker { m.desk with ready } (m.thread id side))) := by
  have hside : side.other ≠ side := by cases side <;> nofun
  cases h with
  | @first w ready hpop =>
    have hkept := (Run.firstStep_sound (hm.runs id) (World.Sound.dequeued hm ready).desk side).kept
    have hat := at_within ((w.dequeued ready).setRun id default) id side ((w.run id).firstStep (w.dequeued ready).desk side)
    refine ⟨?_, ready, ?_, ?_⟩
    · simp only [Moment.thread, if_pos, if_neg hside]
      exact hkept.thread side.other
    · rw [show (resting w).desk.ready.toList = _ from Queue.toList_of_pop? _ _ _ hpop]
      exact List.subset_cons_self _ _
    · cases side with
      | main => exact .inl hat
      | worker =>
        by_cases hcancelled : (w.run id).workerCancelled = true
        · exact .inr ⟨rfl, (hm.runs id).rests .worker, hat.of_eq (if_pos hcancelled)⟩
        · exact .inl (hat.of_eq (if_neg hcancelled))
  | @step w s hpace =>
    obtain ⟨-, hs, -, -⟩ := hm
    have hkept := (Run.step_sound side ⟨hs.run, hs.desk, hs.counted⟩ hs.fits).kept
    refine ⟨?_, s.desk.ready, List.Subset.refl _, .inl ?_⟩
    · simp only [Moment.thread, if_pos, if_neg hside]
      exact hkept.thread side.other
    · rw [(at_within w id side s).run, (at_within w id side s).thread]
      exact at_within w id side _

/-- A thread of the run makes a step, or its slice ends; a service of the run makes a step; the run is cancelled from
outside; or the move is the business of others. -/
inductive Share (id : RunId) (m n : Moment) : Prop
  | step (side : Side) (ready : Queue Ready) (hacts : Acts id side m n)
      (h : n.At id side (Run.step side (m.run id) { m.desk with ready } (m.thread id side)))
      (hother : n.thread id side.other = m.thread id side.other)
  | interrupted (ready : Queue Ready) (hacts : Acts id .worker m n)
      (hrest : (m.thread id .worker).control.atRest = true)
      (h : n.At id .worker ((m.run id).interruptWorker { m.desk with ready } (m.thread id .worker)))
      (hother : n.thread id .main = m.thread id .main)
  | rested (main worker : Thread) (ready : Queue Ready) (hrun : n.run id = { m.run id with main, worker })
      (hdesk : n.desk = { m.desk with ready }) (hthreads : ∀ side, n.thread id side = m.thread id side)
  | served (service : ServiceId) (ready : Queue Ready) (howner : (m.desk.service service).run = id)
      (hrun : n.run id = ((m.run id).stepService { m.desk with ready } service).1)
      (hdesk : n.desk = ((m.run id).stepService { m.desk with ready } service).2)
      (hthreads : ∀ side, n.thread id side = m.thread id side)
  | cancelled (hrests : ∀ side, (m.thread id side).control.atRest = true)
      (hrun : n.run id = (((m.run id).cancelled m.desk).1.revoke ((m.run id).cancelled m.desk).2).1)
      (hdesk : n.desk = (((m.run id).cancelled m.desk).1.revoke ((m.run id).cancelled m.desk).2).2)
      (hthreads : ∀ side, n.thread id side = m.thread id side)
  | aside (hrun : n.run id = m.run id) (hthreads : ∀ side, n.thread id side = m.thread id side)

theorem share_acts (hacts : Acts id side m n) (hm : m.Sound) : Share id m n := by
  obtain ⟨hother, ready, -, hat | ⟨rfl, hrest, hat⟩⟩ := hacts.stride hm
  · exact .step side ready hacts hat hother
  · exact .interrupted ready hacts hrest hat hother

theorem share_rest {w : World} {s : Step} (hid : id < w.runs.size) :
    Share id (within w id side s) (resting (w.rest id side s)) := by
  obtain ⟨ready, hdesk⟩ := w.rest_desk id side s
  have hrun := World.run_rest_self w hid side s
  cases side with
  | main =>
    refine .rested s.thread s.run.worker ready ?_ hdesk fun side => ?_
    · simp only [Moment.run, if_pos]
      exact hrun
    · simp only [Moment.thread, if_pos, hrun]
      cases side <;> rfl
  | worker =>
    refine .rested s.run.main s.thread ready ?_ hdesk fun side => ?_
    · simp only [Moment.run, if_pos]
      exact hrun
    · simp only [Moment.thread, if_pos, hrun]
      cases side <;> rfl

theorem share_advance {w : World} (hm : w.Sound) {entry : Ready} {ready : Queue Ready} (hid : id < w.runs.size)
    (hentry : ∀ id side, entry ≠ .thread id side) :
    Share id (resting w) (resting ((w.dequeued ready).advance entry)) := by
  have hquiet := World.advance_quiet (hm.dequeued ready) hid hentry
  cases entry with
  | thread id side => exact absurd rfl (hentry id side)
  | gathered | forget | controller => exact .aside rfl fun _ => rfl
  | service service =>
    have hrun := World.run_advance_service (w.dequeued ready) service id hid
    by_cases howner : id = ((w.dequeued ready).desk.service service).run
    · rw [if_pos howner] at hrun
      refine .served service ready howner.symm hrun ?_ hquiet.thread
      rw [howner]
      rfl
    · rw [if_neg howner] at hrun
      exact .aside hrun hquiet.thread

theorem Move.share (hn : Move m n) (hm : m.Sound) (hid : id < m.size) : Share id m n := by
  cases hn with
  | @reorder w ready hperm => exact .rested (w.run id).main (w.run id).worker ready rfl rfl fun _ => rfl
  | next hn =>
    cases hn with
    | @driven w w' hdriven =>
      have hthread := (hdriven.later.runs id hid).thread
      rcases hdriven.grown with hgrown | ⟨other, rfl⟩
      · exact .aside (hgrown.run_eq hid) hthread
      · rcases w.run_cancel other hid with hrun | ⟨hrun, hdesk⟩
        · exact .aside hrun hthread
        · exact .cancelled (hm.runs id).rests hrun hdesk hthread
    | waited _ _ => exact .aside rfl fun _ => rfl
    | entry _ hentry => exact share_advance hm hid hentry
    | @thread w active working ready hpop =>
      by_cases hactive : id = active
      · subst hactive
        exact share_acts (.first hpop) hm
      · refine .aside ?_ fun side => ?_
        · simp only [Moment.run, if_neg hactive]
          exact World.run_setRun_ne _ hactive _
        · simp only [Moment.thread, if_neg hactive]
          rw [World.run_setRun_ne _ hactive]
          rfl
    | @step w active working s hpace =>
      by_cases hactive : id = active
      · subst hactive
        exact share_acts (.step hpace) hm
      · exact .aside (by simp only [Moment.run, if_neg hactive]) fun side => by simp only [Moment.thread, if_neg hactive]
    | @rest w active working s hpace =>
      by_cases hactive : id = active
      · subst hactive
        exact share_rest hid
      · have hrun := World.run_rest_ne w hactive working s
        exact .aside (by simp only [Moment.run, if_neg hactive, hrun])
          fun side => by simp only [Moment.thread, if_neg hactive, hrun]

/-- A run that was not there before the move has not begun. -/
theorem Move.unbegun (hn : Move m n) (hold : m.size ≤ id) (hnew : id < n.size) :
    (n.run id).Unbegun ∧ ∀ side, n.thread id side = {} := by
  have hsame (h : n.size = m.size) : False := Nat.lt_irrefl _ (Nat.lt_of_lt_of_le (h ▸ hnew) hold)
  cases hn with
  | reorder _ => exact (hsame rfl).elim
  | next hn =>
    cases hn with
    | @driven w w' hdriven =>
      rcases hdriven.grown with hgrown | ⟨other, rfl⟩
      · have hr := hgrown.unbegun hold hnew
        exact ⟨hr, fun
          | .main => hr.main
          | .worker => hr.worker⟩
      · exact (hsame (w.size_cancel other)).elim
    | waited _ _ => exact (hsame rfl).elim
    | @entry w entry ready _ hentry => exact (hsame (World.size_advance (w.dequeued ready) hentry)).elim
    | thread _ => exact (hsame (World.size_setRun _ _ _)).elim
    | step _ => exact (hsame rfl).elim
    | rest _ => exact (hsame ((congrArg Array.size (World.runs_rest _ _ _ _)).trans (World.size_setRun _ _ _))).elim

/-- What holds of runs that have not begun, and is kept by every move, holds of all runs. -/
theorem Possible.run_induction {P : RunId → Moment → Prop} (hm : Possible m) (hid : id < m.size)
    (hbegin : ∀ {n : Moment} {id : RunId}, (n.run id).Unbegun → (∀ side, n.thread id side = {}) → P id n)
    (hmove : ∀ {m n : Moment} {id : RunId}, Possible m → id < m.size → Move m n → P id m → P id n) : P id m := by
  induction hm with
  | fresh host config holds hbus => exact absurd hid (Nat.not_lt_zero id)
  | @move m n hm hn ih =>
    by_cases hold : id < m.size
    · exact hmove hm hold hn (ih hold)
    · obtain ⟨hunbegun, hthreads⟩ := hn.unbegun (Nat.le_of_not_lt hold) hid
      exact hbegin hunbegun hthreads

/-- What every move keeps of a run is kept by all the moves that follow. -/
theorem Moves.run_induction {P : Moment → Prop} (hn : Moves m n) (hm : Possible m) (hid : id < m.size)
    (hmove : ∀ {n o : Moment}, Possible n → id < n.size → Move n o → P n → P o) (h : P m) : P n := by
  induction hn with
  | refl => exact h
  | move hmoves hn ih => exact hmove (hm.moves hmoves) (Nat.lt_of_lt_of_le hid hmoves.size) hn ih

end Moment

end DeskScript
