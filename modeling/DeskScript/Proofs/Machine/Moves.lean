import DeskScript.Proofs.Machine.Attended
import DeskScript.Proofs.Machine.Resting

set_option autoImplicit false

/-!
# What one move does

A move of the world seen from one thread, from one service and from the queue. A thread that is in a body goes one step
or stays as it is; a service is woken, goes one step of its own, or stays; and the queue loses its first entry or only
grows.
-/

namespace DeskScript

namespace World

variable {w w' : World} {id : RunId}

theorem run_addRun (w : World) (r : Run) (hid : id < w.runs.size) : (w.addRun r).run id = w.run id := by
  simp only [addRun, run, Array.getD_eq_getD_getElem?, Array.getElem?_push, Nat.ne_of_lt hid, if_false]

theorem size_addRun (w : World) (r : Run) : (w.addRun r).runs.size = w.runs.size + 1 := Array.size_push _

structure Later (w w' : World) : Prop where
  size : w.runs.size ≤ w'.runs.size
  runs : ∀ id, id < w.runs.size → (w.run id).Quiet (w'.run id)
  desk : w.desk.Onward w'.desk

theorem Later.of_runs (hruns : w'.runs = w.runs) (hdesk : w.desk.Onward w'.desk) : w.Later w' := by
  refine ⟨Nat.le_of_eq (congrArg Array.size hruns.symm), fun id _ => ?_, hdesk⟩
  rw [run, run, hruns]
  exact .refl _

theorem Later.trans {w'' : World} (h : w.Later w') (h' : w'.Later w'') : w.Later w'' :=
  ⟨Nat.le_trans h.size h'.size,
    fun id hid => (h.runs id hid).trans (h'.runs id (Nat.lt_of_lt_of_le hid h.size)),
    h.desk.trans h'.desk⟩

theorem later_addRun (w : World) (r : Run) : w.Later (w.addRun r) := by
  have hdesk : w.desk.Onward (w.addRun r).desk := .of_services rfl (List.prefix_refl _)
  refine ⟨by rw [size_addRun]; exact Nat.le_succ _, fun id hid => ?_, hdesk⟩
  rw [run_addRun w r hid]
  exact .refl _

theorem later_publish (w : World) (event : Event) : w.Later (w.publish event) :=
  .of_runs rfl (w.desk.publish_onward event)

theorem later_ready (w : World) (entry : Ready) (running : Dict RunId) :
    w.Later { w with desk := w.desk.enqueue entry, running } :=
  .of_runs rfl (w.desk.enqueue_onward entry)

theorem later_start (w : World) (l : Launch) : w.Later (w.start l).2 := by
  obtain ⟨hruns, hdesk⟩ := w.nameFor_same l.name
  have hnamed : w.Later (w.nameFor l.name).2 := .of_runs hruns (hdesk ▸ .refl _)
  simp only [World.start]
  generalize w.nameFor l.name = named at hnamed ⊢
  split
  · split
    · exact ((hnamed.trans (later_publish _ _)).trans (later_publish _ _)).trans (later_addRun _ _)
    · exact (hnamed.trans (later_publish _ _)).trans (later_addRun _ _)
  · split
    · exact hnamed.trans (later_publish _ _)
    · exact ((hnamed.trans (later_publish _ _)).trans (later_addRun _ _)).trans (later_ready _ _ _)

theorem later_cancel (w : World) (id : RunId) : w.Later (w.cancel id) := by
  simp only [World.cancel]
  split
  · exact .of_runs rfl (.refl _)
  · have hdesk : w.desk.Onward (((w.run id).cancelled w.desk).1.revoke ((w.run id).cancelled w.desk).2).2 := by
      refine (w.desk.interruptAll_onward (w.run id).governor.pending).trans ?_
      exact .of_services rfl (List.prefix_refl _)
    refine ⟨Nat.le_of_eq (size_setRun _ _ _).symm, fun other hother => ?_, hdesk⟩
    by_cases hid : other = id
    · subst hid
      refine Eq.subst (run_setRun_self { w with desk := _ } hother _).symm ?_
      exact ((w.run other).cancelled_quiet w.desk).trans (Run.revoke_quiet _ _)
    · rw [run_setRun_ne _ hid]
      exact .refl _

theorem Driven.later (h : w.Driven w') : w.Later w' := by
  have hhost {host : Host} : w.desk.Onward { w.desk with host } := .of_services rfl (List.prefix_refl _)
  cases h with
  | start l => exact later_start w l
  | launch name hparse limits startedAt heap scopes => exact (later_addRun w _).trans (later_ready _ _ _)
  | publish event => exact later_publish w event
  | cancel id => exact later_cancel w id
  | answer p => exact .of_runs rfl (w.desk.answer_onward p)
  | wait awaited => exact .of_runs rfl (.refl _)
  | turn => exact .of_runs rfl (w.desk.enqueue_onward _)
  | configure config => exact .of_runs rfl (.refl _)
  | listen pattern hl => exact .of_runs rfl hhost
  | unlisten token => exact .of_runs rfl hhost
  | host hbus => exact .of_runs rfl hhost

theorem size_advance (w : World) {entry : Ready} (h : ∀ id side, entry ≠ .thread id side) :
    (w.advance entry).runs.size = w.runs.size := by
  cases entry with
  | thread id side => exact absurd rfl (h id side)
  | service service => simp [advance, size_setRun]
  | gathered _ | forget _ | controller => rfl

theorem advance_quiet (hw : w.Sound) (hid : id < w.runs.size) {entry : Ready} (h : ∀ id side, entry ≠ .thread id side) :
    (w.run id).Quiet ((w.advance entry).run id) := by
  cases entry with
  | thread id side => exact absurd rfl (h id side)
  | service service =>
    rw [run_advance_service w service id hid]
    split
    · exact (Run.stepService_sound _ hw.desk service).1
    · exact .refl _
  | gathered _ | forget _ | controller => exact .refl _

end World

/-- A move of the thread itself, while it runs a body: a step, or it is interrupted where it rests. -/
inductive Thread.Moved (limits : Limits) (side : Side) (t t' : Thread) : Prop
  | step (r : Run) (d : Desk) (hr : r.Bears limits t.stack) (h : t' = (Run.step side r d t).thread)
  | interrupted (e : Raised) (hrest : t.control.atRest = true) (h : t' = ⟨.raised e, t.stack⟩)

theorem Run.firstStep_moved {r : Run} {side : Side} (hr : r.Settled) (hbody : InBody (r.thread side).stack) (d : Desk) :
    (r.thread side).Moved r.limits side (r.firstStep d side).thread := by
  have hbears : r.Bears r.limits (r.thread side).stack := ⟨rfl, Nat.le_trans (Nat.le_add_right _ _) (counted_side hr side)⟩
  cases side with
  | main => exact .step r d hbears rfl
  | worker =>
    simp only [firstStep]
    split
    · have hfits := hr.fits .worker
      have hrest := hr.rests .worker
      change r.worker.control.Fits r.worker.stack at hfits
      change r.worker.control.atRest = true at hrest
      simp only [interruptWorker]
      split
      · exact .interrupted _ hrest rfl
      · exact .interrupted _ hrest rfl
      · rename_i hresume hrecheck
        -- A worker that rests elsewhere is not in a body.
        have hempty : r.worker.stack = [] := by
          cases hcontrol : r.worker.control <;> rw [hcontrol] at hfits hrest
          case resume service releases => exact absurd hcontrol (hresume service releases)
          case recheck => exact absurd hcontrol hrecheck
          case start | receive | settle | finished => exact hfits
          all_goals cases hrest
        change InBody r.worker.stack at hbody
        rw [hempty] at hbody
        rcases hbody with hbody | hbody <;> cases hbody
    · exact .step r d hbears rfl

theorem Run.leaveHandler_stack (r : Run) (d : Desk) (result : Except Raised Unit) :
    (r.leaveHandler d result).thread.stack = [] := by
  unfold leaveHandler
  split
  · rfl
  · split <;> rfl
  · rfl
  · rfl
  · rfl

/-- The lowest frame of a stack is the only one of its kind. -/
theorem Stacked.ground {need : Need} {stack : List Frame} (h : Stacked need stack) {frame : Frame} (hmem : frame ∈ stack)
    (hground : frame.isGround = true) : stack.getLast? = some frame := by
  have hnone : frame.gives = none := by cases frame <;> first | rfl | cases hground
  induction stack generalizing need with
  | nil => cases hmem
  | cons top rest ih =>
    obtain ⟨-, -, hbelow⟩ := h
    cases hgives : top.gives with
    | none =>
      rw [hgives] at hbelow
      obtain rfl : rest = [] := hbelow
      rw [List.mem_singleton.1 hmem]
      rfl
    | some given =>
      rw [hgives] at hbelow
      have hne : rest ≠ [] := by
        rintro rfl
        exact hbelow.elim
      rw [List.getLast?_cons_of_ne_nil hne]
      refine ih hbelow ((List.mem_cons.1 hmem).resolve_left ?_)
      rintro rfl
      rw [hnone] at hgives
      cases hgives

theorem Thread.Fits.stacked {t : Thread} (h : t.Fits) (hne : t.stack ≠ []) : ∃ need, Stacked need t.stack := by
  unfold Thread.Fits at h
  cases hcontrol : t.control <;> rw [hcontrol] at h
  case statements | perform | ended => exact ⟨_, h.1⟩
  case raised => exact h
  case start | receive | settle | finished => exact absurd h hne
  all_goals exact ⟨_, h⟩

theorem InBody.ne_nil {stack : List Frame} (h : InBody stack) : stack ≠ [] := by
  rintro rfl
  rcases h with h | h <;> cases h

theorem Run.step_inBody {side : Side} {r : Run} {d : Desk} {t : Thread} (hfits : t.Fits)
    (hnext : (step side r d t).thread.Fits) (hbody : InBody t.stack) (hover : ¬t.BodyOver) :
    InBody (step side r d t).thread.stack := by
  by_cases hcomputes : t.computes = true
  · have hcalm := @step_calm side r d t hcomputes
    rcases Step.fits_cases hnext with hin | ⟨v, hclosing⟩ | ⟨-, hrest⟩
    · exact hin
    · rcases hcalm.frames (.closing v) (by rw [hclosing]; exact List.mem_cons_self) with hmem | hinner
      · obtain ⟨need, hstacked⟩ := hfits.stacked hbody.ne_nil
        have hlast := hstacked.ground hmem rfl
        rcases hbody with hbody | hbody <;> exact nomatch hlast.symm.trans hbody
      · cases side <;> cases hinner
    · exact absurd hrest (Bool.eq_false_iff.1 hcalm.inner)
  obtain ⟨control, stack⟩ := t
  -- The lowest frame alone, with a control that ends its body.
  have halone {frame : Frame} {rest : List Frame} (hstack : stack = frame :: rest) (hground : ¬(!frame.isGround) = true)
      (hends : (∃ signal, control = .ended signal) ∨ ∃ e, control = .raised e) :
      InBody (step side r d ⟨control, stack⟩).thread.stack := by
    subst hstack
    obtain ⟨need, -, -, hbelow⟩ := hfits.stacked hbody.ne_nil
    rcases ground_cases hground with rfl | rfl | ⟨v, rfl⟩
    · obtain rfl : rest = [] := hbelow
      exact absurd ⟨.inr rfl, hends⟩ hover
    · obtain rfl : rest = [] := hbelow
      exact absurd ⟨.inl rfl, hends⟩ hover
    · obtain rfl : rest = [] := hbelow
      rcases hbody with hbody | hbody <;> cases hbody
  match control, stack with
  | .checkpoint, stack =>
    simp only [step, checkpoint]
    split
    · exact hbody
    · split <;> exact hbody
  | .request work, stack =>
    simp only [step, request]
    split <;> exact hbody
  | .resume id releases, stack =>
    simp only [step, resume]
    split
    · exact hbody
    · split <;> exact hbody
  | .ended signal, frame :: stack => exact halone rfl hcomputes (.inl ⟨signal, rfl⟩)
  | .raised e, frame :: stack => exact halone rfl hcomputes (.inr ⟨e, rfl⟩)
  | .replied result, frame :: stack =>
    obtain ⟨hneed, -, hbelow⟩ := hfits
    rcases ground_cases hcomputes with rfl | rfl | ⟨v, rfl⟩
    · cases hneed
    · cases hneed
    · obtain rfl : stack = [] := hbelow
      rcases hbody with hbody | hbody <;> cases hbody
  | .start, stack | .receive, stack | .settle _, stack | .finished, stack => exact absurd hfits hbody.ne_nil
  | .statements _ _, stack | .perform _ _, stack | .evaluate _ _, stack | .recheck, stack | .clear, stack
  | .value _, _ :: _ | .passed, _ :: _ => exact absurd rfl hcomputes
  | .value _, [] | .passed, [] | .replied _, [] | .ended _, [] | .raised _, [] => exact absurd rfl hbody.ne_nil

theorem Thread.Moved.inBody {limits : Limits} {side : Side} {t t' : Thread} (h : t.Moved limits side t') (hfits : t.Fits)
    (hnext : t'.Fits) (hbody : InBody t.stack) (hover : ¬t.BodyOver) : InBody t'.stack := by
  cases h with
  | step r d _ h =>
    subst h
    exact Run.step_inBody hfits hnext hbody hover
  | interrupted e _ h =>
    subst h
    exact hbody

namespace Moment

variable {m n : Moment} {id : RunId} {side : Side}

inductive Takes : Ready → Moment → Moment → Prop
  | entry {w : World} {entry : Ready} {ready : Queue Ready} (hpop : w.desk.ready.pop? = some (entry, ready))
      (h : ∀ id side, entry ≠ .thread id side) : Takes entry (resting w) (resting ((w.dequeued ready).advance entry))
  | thread {w : World} {id : RunId} {side : Side} {ready : Queue Ready}
      (hpop : w.desk.ready.pop? = some (.thread id side, ready)) :
      Takes (.thread id side) (resting w) (within ((w.dequeued ready).setRun id default) id side
        ((w.run id).firstStep (w.dequeued ready).desk side))

theorem Next.size (hn : Next m n) : m.size ≤ n.size := by
  cases hn with
  | driven hdriven => exact hdriven.later.size
  | waited _ _ => exact Nat.le_refl _
  | @entry w entry ready _ hentry => exact Nat.le_of_eq (World.size_advance (w.dequeued ready) hentry).symm
  | thread _ => exact Nat.le_of_eq (World.size_setRun _ _ _).symm
  | step _ => exact Nat.le_refl _
  | rest _ => exact Nat.le_of_eq ((congrArg Array.size (World.runs_rest _ _ _ _)).trans (World.size_setRun _ _ _)).symm

theorem Next.terms (hn : Next m n) (hm : m.Sound) (hid : id < m.size) : (m.run id).SameTerms (n.run id) := by
  cases hn with
  | driven hdriven => exact (hdriven.later.runs id hid).kept.terms
  | waited _ _ => exact .refl _
  | @entry w entry ready _ hentry => exact (World.advance_quiet (World.Sound.dequeued hm ready) hid hentry).kept.terms
  | @thread w active working ready _ =>
    simp only [Moment.run]
    split
    · rename_i hactive
      rw [hactive]
      exact (Run.firstStep_sound (hm.runs active) (World.Sound.dequeued hm ready).desk working).kept.terms
    · rename_i hactive
      rw [World.run_setRun_ne _ hactive]
      exact .refl _
  | step _ =>
    obtain ⟨-, hs, -, -⟩ := hm
    simp only [Moment.run]
    split
    · exact (Run.step_sound _ ⟨hs.run, hs.desk, hs.counted⟩ hs.fits).kept.terms
    · exact .refl _
  | @rest w active working s _ =>
    simp only [Moment.run]
    split
    · rename_i hactive
      subst hactive
      rw [World.run_rest_self w hid]
      cases working <;> exact ⟨rfl, rfl, rfl, rfl⟩
    · rename_i hactive
      rw [World.run_rest_ne w hactive]
      exact .refl _

theorem other_of_ne {side side' : Side} (h : side ≠ side') : side = side'.other := by
  cases side <;> cases side' <;> first | rfl | exact absurd rfl h

/-- A thread that runs a body is as it was, or the move was its own. -/
theorem Next.thread_cases (hn : Next m n) (hm : m.Sound) (hid : id < m.size) (hbody : InBody (m.thread id side).stack) :
    n.thread id side = m.thread id side ∨
      (m.thread id side).Moved (m.run id).limits side (n.thread id side) := by
  cases hn with
  | driven hdriven => exact .inl ((hdriven.later.runs id hid).thread side)
  | waited _ _ => exact .inl rfl
  | @entry w entry ready _ hentry =>
    exact .inl ((World.advance_quiet (World.Sound.dequeued hm ready) hid hentry).thread side)
  | @thread w active working ready _ =>
    simp only [Moment.thread]
    split
    · rename_i hactive
      subst hactive
      split
      · rename_i hside
        subst hside
        exact .inr (Run.firstStep_moved (hm.runs id) hbody _)
      · exact .inl ((Run.firstStep_sound (hm.runs id) (World.Sound.dequeued hm ready).desk working).kept.thread side)
    · rename_i hactive
      rw [World.run_setRun_ne _ hactive]
      exact .inl rfl
  | @step w active working s _ =>
    obtain ⟨-, hs, -, -⟩ := hm
    simp only [Moment.thread, Moment.run]
    split
    · split
      · rename_i hside
        subst hside
        exact .inr (.step s.run s.desk ⟨rfl, Nat.le_trans (Nat.le_add_right _ _) hs.counted⟩ rfl)
      · exact .inl ((Run.step_sound working ⟨hs.run, hs.desk, hs.counted⟩ hs.fits).kept.thread side)
    · exact .inl rfl
  | @rest w active working s _ =>
    refine .inl ?_
    simp only [Moment.thread]
    split
    · rename_i hactive
      subst hactive
      rw [World.run_rest_self w hid]
      split
      · rename_i hside
        subst hside
        cases side <;> rfl
      · rename_i hside
        obtain rfl := other_of_ne hside
        cases working <;> rfl
    · rename_i hactive
      rw [World.run_rest_ne w hactive]

/-- A thread that does not rest is in its slice, and the next move is its step. -/
theorem Next.inner (hn : Next m n) (hm : m.Sound) (hinner : (m.thread id side).control.atRest = false) :
    n.run id = (Run.step side (m.run id) m.desk (m.thread id side)).run ∧
      n.thread id side = (Run.step side (m.run id) m.desk (m.thread id side)).thread ∧
      (m.run id).Bears (m.run id).limits (m.thread id side).stack := by
  cases m with
  | resting w => exact absurd ((hm.runs id).rests side) (Bool.eq_false_iff.1 hinner)
  | within w active working s =>
    obtain ⟨hw, hs, -, hother⟩ := hm
    by_cases hid : id = active
    · by_cases hside : side = working
      · subst hid hside
        simp only [Moment.thread, Moment.run, if_pos] at hinner ⊢
        cases hn with
        | step _ => exact ⟨if_pos rfl, by simp only [if_pos, Moment.desk], rfl, Nat.le_trans (Nat.le_add_right _ _) hs.counted⟩
        | rest hpace => exact absurd (hs.rests hpace) (Bool.eq_false_iff.1 hinner)
      · simp only [Moment.thread, if_pos hid, if_neg hside] at hinner
        rw [other_of_ne hside] at hinner
        exact absurd hother (Bool.eq_false_iff.1 hinner)
    · simp only [Moment.thread, if_neg hid] at hinner
      exact absurd ((hw.runs id).rests side) (Bool.eq_false_iff.1 hinner)

theorem Takes.moved (h : Takes (.thread id side) m n) (hm : m.Sound) (hbody : InBody (m.thread id side).stack) :
    (m.thread id side).Moved (m.run id).limits side (n.thread id side) := by
  cases h with
  | entry _ hentry => exact absurd rfl (hentry id side)
  | thread _ =>
    simp only [Moment.thread, if_pos]
    exact Run.firstStep_moved (hm.runs id) hbody _

theorem Attended.sided (ha : m.Attended) (hid : id < m.size) (side : Side) : (m.thread id side).Sided side := by
  cases m with
  | resting w => exact (ha.runs id hid).sided side
  | within w active working s =>
    obtain ⟨-, ⟨name, hs, -⟩, hothers⟩ := ha
    simp only [Moment.thread]
    split
    · split
      · rename_i hside
        subst hside
        exact hs.sided
      · rename_i hside
        obtain rfl := other_of_ne hside
        exact hs.other
    · rename_i hactive
      exact (hothers id hid hactive).sided side

theorem Attended.keeps (ha : m.Attended) (hid : id < m.size) {service : ServiceId} {releases : Bool}
    (hcontrol : (m.thread id side).control = .resume service releases) : (m.run id).governor.Keeps service m.desk := by
  cases m with
  | resting w => exact (ha.runs id hid).keeps side service releases hcontrol
  | within w active working s =>
    obtain ⟨-, ⟨name, hs, -⟩, hothers⟩ := ha
    simp only [Moment.thread, Moment.run] at hcontrol ⊢
    split
    · rename_i hactive
      rw [if_pos hactive] at hcontrol
      split at hcontrol
      · exact hs.opened service releases hcontrol
      · rename_i hside
        obtain rfl := other_of_ne hside
        exact hs.keeps service releases hcontrol
    · rename_i hactive
      rw [if_neg hactive] at hcontrol
      exact (hothers id hid hactive).keeps side service releases hcontrol

theorem Attended.busy (ha : m.Attended) (hid : id < m.size) : (m.run id).governor.Busy (m.thread id .worker) := by
  cases m with
  | resting w => exact (ha.runs id hid).busy
  | within w active working s =>
    obtain ⟨-, ⟨name, hs, -⟩, hothers⟩ := ha
    simp only [Moment.thread, Moment.run]
    split
    · cases working with
      | main => exact hs.busyOther rfl
      | worker => exact hs.busy rfl
    · rename_i hactive
      exact (hothers id hid hactive).busy

theorem Attended.atDesk (ha : m.Attended) : m.desk.Attended := by
  cases m with
  | resting w => exact World.Attended.desk ha
  | within w active working s => exact ha.1

theorem Next.takes_or_onward (hn : Next m n) (hm : m.Sound) (ha : m.Attended) :
    (∃ entry, Takes entry m n) ∨ m.desk.Onward n.desk := by
  cases hn with
  | driven hdriven => exact .inr hdriven.later.desk
  | waited _ hdesk => exact .inr (Desk.waitForWorld_onward hdesk)
  | entry hpop hentry => exact .inl ⟨_, .entry hpop hentry⟩
  | thread hpop => exact .inl ⟨_, .thread hpop⟩
  | step _ =>
    obtain ⟨-, ⟨name, hstep, -⟩, -⟩ := ha
    obtain ⟨-, hs, -, -⟩ := hm
    exact .inr (hstep.step_attends hs).desk
  | @rest w active working s _ => exact .inr (w.desk_rest active working s)

/-- The entry is taken, and the desk goes onward from there, or one service goes one step. -/
theorem Takes.desk {entry : Ready} (h : Takes entry m n) (hm : m.Sound) (ha : m.Attended) :
    ∃ ready, m.desk.ready.toList = entry :: ready.toList ∧ (Desk.Onward { m.desk with ready } n.desk ∨
      ∃ service r r', entry = .service service ∧ Run.Serves r { m.desk with ready } service r' n.desk) := by
  cases h with
  | @entry w entry ready hpop hthread =>
    refine ⟨ready, Queue.toList_of_pop? _ _ _ hpop, ?_⟩
    cases entry with
    | thread id side => exact absurd rfl (hthread id side)
    | service service => exact .inr ⟨service, _, _, rfl, Run.stepService_serves _ (w.dequeued ready).desk service⟩
    | gathered _ => exact .inl ((w.dequeued ready).desk.enqueue_onward _)
    | forget _ | controller => exact .inl (.refl _)
  | @thread w id side ready hpop =>
    obtain ⟨name, hrun, -⟩ := World.Attended.anyRun ha id
    refine ⟨ready, Queue.toList_of_pop? _ _ _ hpop, .inl ?_⟩
    exact (hrun.firstStep_attends (hm.runs id) (World.Sound.dequeued hm ready).desk side).desk

theorem Takes.ready {entry : Ready} (h : Takes entry m n) (hm : m.Sound) (ha : m.Attended) :
    ∃ rest, m.desk.ready.toList = entry :: rest ∧ rest <+: n.desk.ready.toList := by
  obtain ⟨ready, hready, honward | ⟨service, r, r', -, hserves⟩⟩ := h.desk hm ha
  · exact ⟨ready.toList, hready, honward.ready⟩
  · exact ⟨ready.toList, hready, hserves.ready⟩

structure Serving (service : ServiceId) (m n : Moment) : Prop where
  size : service < n.desk.services.size
  work : (n.desk.service service).work = (m.desk.service service).work
  stage : (n.desk.service service).stage = (m.desk.service service).stage ∨
    ((m.desk.service service).stage = .parked ∧ ∃ r, (n.desk.service service).stage = .woken r) ∨
    Takes (.service service) m n

theorem Takes.outcome {service : ServiceId} (h : Takes (.service service) m n)
    (hsize : service < m.desk.services.size) : ∃ r', Run.Outcome m.desk service r' n.desk := by
  cases h with
  | @entry w _ ready _ _ =>
    have hserves := (w.run (w.desk.service service).run).stepService_serves (w.dequeued ready).desk service
    refine ⟨((w.run (w.desk.service service).run).stepService (w.dequeued ready).desk service).1, ?_⟩
    cases hserves.outcome hsize with
    | same hstage hwaits => exact .same hstage hwaits
    | done result hstage hready => exact .done result hstage hready
    | parked hfresh hstage hwaits => exact .parked hfresh hstage hwaits
    | again hstage hready hbefore => exact .again hstage hready hbefore

theorem Next.serving (hn : Next m n) (hm : m.Sound) (ha : m.Attended) {service : ServiceId}
    (hsize : service < m.desk.services.size) : Serving service m n := by
  have honward (ready : Queue Ready) (h : Desk.Onward { m.desk with ready } n.desk) : Serving service m n := by
    have hnext : service < n.desk.services.size := Nat.lt_of_lt_of_le hsize h.size
    refine ⟨hnext, (h.owner service hsize).2.2, ?_⟩
    cases h.stage service hnext with
    | same _ hsame => exact .inl hsame
    | woken _ hparked r hwoken _ => exact .inr (.inl ⟨hparked, r, hwoken⟩)
    | opened hnew _ _ => exact absurd hsize (Nat.not_lt.2 hnew)
  rcases hn.takes_or_onward hm ha with ⟨entry, htakes⟩ | h
  · obtain ⟨ready, -, h | ⟨other, r, r', rfl, hserves⟩⟩ := htakes.desk hm ha
    · exact honward ready h
    · have hnext : service < n.desk.services.size := Nat.lt_of_lt_of_eq hsize hserves.size.symm
      by_cases hsame : service = other
      · subst hsame
        exact ⟨hnext, hserves.owner.2.2, .inr (.inr htakes)⟩
      · have hservice := hserves.others service hsame
        exact ⟨hnext, congrArg Service.work hservice, .inl (congrArg Service.stage hservice)⟩
  · exact honward m.desk.ready h

end Moment

end DeskScript
