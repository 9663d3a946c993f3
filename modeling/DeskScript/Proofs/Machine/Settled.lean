import DeskScript.Proofs.Machine.Reach
import DeskScript.Proofs.Machine.Sound

set_option autoImplicit false

/-!
# Every reachable moment is sound

The runs and the desk of a world that is reached from a world without runs are as `Step.Sound` says: at rest by
`World.Sound`, within a slice by `Moment.Sound`. Main statement: `Moment.Reachable.sound`.
-/

namespace DeskScript

def Side.other : Side → Side
  | .main => .worker
  | .worker => .main

structure Run.Settled (r : Run) : Prop where
  sound : r.Sound
  fits : ∀ side, (r.thread side).Fits
  rests : ∀ side, (r.thread side).control.atRest = true
  counted : calls r.main.stack + calls r.worker.stack ≤ r.callDepth

namespace Run

variable {r r' : Run} {d : Desk}

theorem Quiet.thread (h : r.Quiet r') (side : Side) : r'.thread side = r.thread side := by
  cases side with
  | main => exact h.main
  | worker => exact h.worker

theorem Kept.thread (h : r.Kept r') (side : Side) : r'.thread side = r.thread side := by
  cases side with
  | main => exact h.main
  | worker => exact h.worker

theorem Settled.quiet (h : r.Settled) (hq : r.Quiet r') : r'.Settled := by
  refine ⟨h.sound.quiet hq, fun side => ?_, fun side => ?_, ?_⟩
  · rw [hq.thread]
    exact h.fits side
  · rw [hq.thread]
    exact h.rests side
  · rw [hq.main, hq.worker, hq.callDepth]
    exact h.counted

theorem settled_fresh (hprogram : ∀ p, r.program = some p → Stmt.allConfined false p.statements = true)
    (hfunctions : r.functions = []) (hmain : r.main = {}) (hworker : r.worker = {}) : r.Settled := by
  have hthread (side : Side) : r.thread side = {} := by cases side <;> assumption
  refine ⟨⟨hprogram, fun name f hf => ?_⟩, fun side => ?_, fun side => ?_, ?_⟩
  · rw [hfunctions] at hf
    cases hf
  · rw [hthread]
    rfl
  · rw [hthread]
    rfl
  · rw [hmain, hworker]
    exact Nat.zero_le _

theorem settled_default : (default : Run).Settled := settled_fresh (by rintro p ⟨⟩) rfl rfl rfl

theorem counted_side (h : r.Settled) (side : Side) :
    calls (r.thread side).stack + calls (r.thread side.other).stack ≤ r.callDepth := by
  have hcounted := h.counted
  cases side with
  | main => exact hcounted
  | worker => exact Nat.add_comm _ _ ▸ hcounted

theorem firstStep_sound (h : r.Settled) (hd : d.Sound) (side : Side) :
    (r.firstStep d side).Sound r (calls (r.thread side.other).stack) := by
  have hscene : Scene (calls (r.thread side.other).stack) r d (r.thread side).stack :=
    ⟨h.sound, hd, counted_side h side⟩
  cases side with
  | main => exact step_sound .main hscene (h.fits .main)
  | worker =>
    simp only [firstStep]
    split
    · exact interruptWorker_sound hscene (h.fits .worker)
    · exact step_sound .worker hscene (h.fits .worker)

theorem answerCommand_sound (r : Run) (hd : d.Sound) (id : ServiceId) (answer : CommandAnswer) (args : Plain) :
    r.Quiet (r.answerCommand d id answer args).1 ∧ (r.answerCommand d id answer args).2.Sound := by
  unfold answerCommand
  split
  · split
    · exact ⟨⟨rfl, rfl, rfl, rfl, rfl, rfl, rfl, rfl, rfl⟩, hd.still (d.complete_still id _)⟩
    · exact ⟨.refl r, hd.still (d.complete_still id _)⟩
  · exact ⟨.refl r, hd.still (d.complete_still id _)⟩

theorem tickCommand_sound (r : Run) (hd : d.Sound) (id : ServiceId) (ticks : Nat) (answer : CommandAnswer) (args : Plain) :
    r.Quiet (r.tickCommand d id ticks answer args).1 ∧ (r.tickCommand d id ticks answer args).2.Sound := by
  cases ticks with
  | zero => exact answerCommand_sound r hd id answer args
  | succ left => exact ⟨.refl r, hd.still ⟨rfl, rfl⟩⟩

theorem beginService_sound (r : Run) (hd : d.Sound) (id : ServiceId) (work : Work) :
    r.Quiet (r.beginService d id work).1 ∧ (r.beginService d id work).2.Sound := by
  have hrecord (name : String) (args : Plain) : (d.recordCommand name args).Sound := hd.still ⟨rfl, rfl⟩
  cases work with
  | dialog kind message default => exact ⟨.refl r, hd.still (d.beginDialog_still id kind message default)⟩
  | command name args => exact tickCommand_sound r (hrecord name args) id _ _ _
  | request q => exact tickCommand_sound r (hrecord _ _) id _ _ _
  | sleep ms => exact ⟨.refl r, hd.still (d.beginSleep_still id ms)⟩
  | idle =>
    simp only [beginService]
    split
    · exact ⟨.refl r, hd.still (d.complete_still id _)⟩
    · exact ⟨⟨rfl, rfl, rfl, rfl, rfl, rfl, rfl, rfl, rfl⟩, hd.still (d.setStage_still id _)⟩
  | join =>
    simp only [beginService]
    split
    · exact ⟨.refl r, hd.still (d.complete_still id _)⟩
    · refine ⟨.refl r, Desk.Sound.still ?_ (Desk.setStage_still _ id _)⟩
      exact hd.modifyBox r.id fun _ hb => hb

theorem stepService_sound (r : Run) (hd : d.Sound) (id : ServiceId) :
    r.Quiet (r.stepService d id).1 ∧ (r.stepService d id).2.Sound := by
  simp only [stepService]
  split
  · exact ⟨.refl r, hd⟩
  · exact ⟨.refl r, hd.still (d.complete_still id _)⟩
  · exact beginService_sound r hd id _
  · exact tickCommand_sound r hd id _ _ _
  · exact ⟨.refl r, hd.still (d.complete_still id _)⟩
  · exact ⟨.refl r, hd.still (d.complete_still id _)⟩
  · exact ⟨.refl r, hd⟩

end Run

structure World.Sound (w : World) : Prop where
  desk : w.desk.Sound
  runs : ∀ id, (w.run id).Settled

namespace World

variable {w w' : World}

theorem Sound.withDesk (h : w.Sound) {desk : Desk} (hd : desk.Sound) : Sound { w with desk } := ⟨hd, h.runs⟩

theorem Sound.dequeued (h : w.Sound) (ready : Queue Ready) : (w.dequeued ready).Sound :=
  ⟨h.desk.still ⟨rfl, rfl⟩, h.runs⟩

theorem Sound.ready (h : w.Sound) (entry : Ready) (running : Dict RunId) :
    Sound { w with desk := w.desk.enqueue entry, running } :=
  ⟨h.desk.still (w.desk.enqueue_still entry), h.runs⟩

theorem run_setRun (w : World) (id other : RunId) (r : Run) :
    (w.setRun id r).run other = w.run other ∨ (w.setRun id r).run other = r := by
  simp only [run, setRun, Array.getD_eq_getD_getElem?, Array.getElem?_setIfInBounds]
  split
  · split
    · exact .inr rfl
    · rename_i hid hsize
      subst hid
      exact .inl (by simp [Array.getElem?_eq_none (Nat.le_of_not_lt hsize)])
  · exact .inl rfl

theorem Sound.setRun (h : w.Sound) (id : RunId) {r : Run} (hr : r.Settled) : (w.setRun id r).Sound := by
  refine ⟨h.desk, fun other => ?_⟩
  rcases w.run_setRun id other r with hrun | hrun
  · rw [hrun]
    exact h.runs other
  · rw [hrun]
    exact hr

theorem Sound.concluded (h : w.Sound) (id : RunId) : (w.concluded id).Sound := by
  have hdesk := h.desk.still (w.desk.enqueue_still (.forget id))
  simp only [World.concluded]
  split
  · exact ⟨hdesk.still (Desk.enqueue_still _ _), h.runs⟩
  · exact ⟨hdesk, h.runs⟩

theorem Sound.cancel (h : w.Sound) (id : RunId) : (w.cancel id).Sound := by
  simp only [World.cancel]
  split
  · exact h
  · have hcancelled := (h.desk.still (w.desk.interruptAll_still (w.run id).governor.pending))
    refine Sound.setRun ?_ id ((h.runs id).quiet (((w.run id).cancelled_quiet w.desk).trans (Run.revoke_quiet _ _)))
    exact h.withDesk (hcancelled.unsubscribeAll _)

theorem Sound.addRun (h : w.Sound) {r : Run} (hr : r.Settled) : (w.addRun r).Sound := by
  refine ⟨⟨fun run m hm => ?_, h.desk.bus⟩, fun id => ?_⟩
  · refine h.desk.mail run m ?_
    simp only [World.addRun, Desk.box, Array.getD_eq_getD_getElem?, Array.getElem?_push] at hm ⊢
    split at hm
    · cases hm
    · exact hm
  · simp only [World.addRun, World.run, Array.getD_eq_getD_getElem?, Array.getElem?_push]
    split
    · exact hr
    · have hid := h.runs id
      rwa [World.run, Array.getD_eq_getD_getElem?] at hid

theorem Sound.publish (h : w.Sound) (event : Event) : (w.publish event).Sound := h.withDesk (h.desk.publish event)

theorem Sound.launch (h : w.Sound) (name : String) {program : Program}
    (hprogram : Stmt.allConfined false program.statements = true) (limits : Limits) (startedAt : Time) (heap : Heap)
    (scopes : Scopes) : (w.launch name program limits startedAt heap scopes).Sound := by
  have hrun : Run.Settled
      { id := w.runs.size, name, program := some program, limits, startedAt, holds := w.holds, heap, scopes } :=
    Run.settled_fresh (fun p hp => by cases hp; exact hprogram) rfl rfl rfl
  exact (h.addRun hrun).ready _ _

/-- What every variable that the host declares leaves of a run, all of them leave of it. -/
theorem declareAll_induction {P : Run → Prop} {r r' : Run} {bindings : List (String × Plain)}
    (h : declareAll r bindings = .ok r')
    (hdeclare : ∀ (r : Run) (heap : Heap) (name : String) (v : Value), P r →
      P { r with heap, scopes := r.scopes.declare 0 name v }) (hr : P r) : P r' := by
  unfold declareAll at h
  generalize Dict.insertAll [] bindings = entries at h
  induction entries generalizing r with
  | nil =>
    cases h
    exact hr
  | cons entry entries ih =>
    rw [List.foldlM_cons] at h
    cases hvalue : r.heap.ofPlain entry.2 with
    | error f => simp [hvalue, bind, Except.bind] at h
    | ok found =>
      simp only [hvalue] at h
      exact ih (hdeclare _ _ _ _ hr) h

theorem declareAll_quiet {r r' : Run} {bindings : List (String × Plain)} (h : declareAll r bindings = .ok r') :
    r.Quiet r' := by
  apply declareAll_induction h _ (.refl r)
  intro r'' heap name v hquiet
  exact hquiet.trans ⟨rfl, rfl, rfl, rfl, rfl, rfl, rfl, rfl, rfl⟩

theorem Sound.nameFor (h : w.Sound) (given : Option String) : (w.nameFor given).2.Sound := by
  unfold World.nameFor
  split
  · split
    · exact ⟨h.desk, h.runs⟩
    · exact h
  · exact ⟨h.desk, h.runs⟩

theorem Sound.start (h : w.Sound) (l : Launch) : (w.start l).2.Sound := by
  have hnamed := h.nameFor l.name
  simp only [World.start]
  generalize w.nameFor l.name = named at hnamed ⊢
  split
  · split
    · refine Sound.addRun ((hnamed.publish _).publish _) ?_
      exact Run.settled_fresh (by rintro p ⟨⟩) rfl rfl rfl
    · refine Sound.addRun (hnamed.publish _) ?_
      exact Run.settled_fresh (by rintro p ⟨⟩) rfl rfl rfl
  · rename_i program hparse
    split
    · exact hnamed.publish _
    · rename_i r hdeclared
      have hrun : r.Settled := by
        refine Run.Settled.quiet ?_ (declareAll_quiet hdeclared)
        refine Run.settled_fresh (fun p hp => ?_) rfl rfl rfl
        cases hp
        exact parseTokens_confined hparse
      exact ((hnamed.publish _).addRun hrun).ready _ _

theorem Sound.advance (h : w.Sound) {entry : Ready} (hentry : ∀ id side, entry ≠ .thread id side) :
    (w.advance entry).Sound := by
  cases entry with
  | thread id side => exact absurd rfl (hentry id side)
  | service id =>
    obtain ⟨hquiet, hdesk⟩ := Run.stepService_sound (w.run (w.desk.service id).run) h.desk id
    exact ((h.setRun _ Run.settled_default).withDesk hdesk).setRun _ ((h.runs _).quiet hquiet)
  | gathered id => exact h.withDesk (h.desk.still (w.desk.enqueue_still _))
  | forget id => exact ⟨h.desk, h.runs⟩
  | controller => exact h

theorem Sound.driven (h : w.Sound) (hdriven : w.Driven w') : w'.Sound := by
  cases hdriven with
  | start l => exact h.start l
  | launch name hparse limits startedAt heap scopes =>
    exact h.launch name (parseTokens_confined hparse) limits startedAt heap scopes
  | publish event => exact h.publish event
  | cancel id => exact h.cancel id
  | answer p => exact h.withDesk (h.desk.still (w.desk.answer_still p))
  | wait awaited => exact ⟨h.desk, h.runs⟩
  | turn => exact h.withDesk (h.desk.still (w.desk.enqueue_still _))
  | configure config => exact ⟨h.desk, h.runs⟩
  | listen pattern hl =>
    refine h.withDesk (h.desk.subscribe pattern ?_)
    rename_i listener
    cases listener with
    | handler run body scope => exact absurd rfl (hl run body scope)
    | recorder => rfl
    | printer lead => rfl
  | unlisten token => exact h.withDesk (h.desk.unsubscribeAll [token])
  | host hbus => exact h.withDesk (h.desk.still ⟨rfl, congrArg Bus.subscriptions hbus⟩)

end World

namespace Moment

def Sound : Moment → Prop
  | resting w => w.Sound
  | within w _ side s =>
    w.Sound ∧ s.Sound s.run (calls (s.run.thread side.other).stack) ∧ (s.run.thread side.other).Fits ∧
      (s.run.thread side.other).control.atRest = true

theorem sound_within {w : World} {id : RunId} {side : Side} {s : Step} {r : Run} (hw : w.Sound)
    (hs : s.Sound r (calls (r.thread side.other).stack)) (hfits : (r.thread side.other).Fits)
    (hrest : (r.thread side.other).control.atRest = true) : Sound (within w id side s) := by
  have hother := hs.kept.thread side.other
  refine ⟨hw, ?_, ?_, ?_⟩
  · rw [hother]
    exact ⟨hs.run, hs.desk, (Run.Quiet.refl _).kept, hs.fits, hs.counted, hs.rests⟩
  · rw [hother]
    exact hfits
  · rw [hother]
    exact hrest

theorem Sound.rest {w : World} {id : RunId} {side : Side} {s : Step} (h : Sound (within w id side s))
    (hpace : s.pace ≠ .go) : (w.rest id side s).Sound := by
  obtain ⟨hw, hs, hfits, hrest⟩ := h
  have hrun : (s.store side).1.Settled := by
    cases side with
    | main => exact ⟨⟨hs.run.program, hs.run.functions⟩, fun
        | .main => hs.fits
        | .worker => hfits, fun
        | .main => hs.rests hpace
        | .worker => hrest, hs.counted⟩
    | worker => exact ⟨⟨hs.run.program, hs.run.functions⟩, fun
        | .main => hfits
        | .worker => hs.fits, fun
        | .main => hrest
        | .worker => hs.rests hpace, Nat.add_comm _ _ ▸ hs.counted⟩
  have hdesk : (s.store side).2.Sound := by
    unfold Step.store
    dsimp only
    split
    · exact hs.desk.still (s.desk.enqueue_still _)
    · exact hs.desk
  have hstored := World.Sound.setRun (hw.withDesk hdesk) id hrun
  unfold World.rest
  dsimp only
  split
  · exact hstored.concluded id
  · exact hstored

theorem Sound.next {m n : Moment} (h : m.Sound) (hn : Next m n) : n.Sound := by
  cases hn with
  | driven hdriven => exact World.Sound.driven h hdriven
  | waited hempty hdesk => exact World.Sound.withDesk h (h.desk.still (Desk.waitForWorld_still hdesk))
  | entry hpop hentry => exact World.Sound.advance (World.Sound.dequeued h _) hentry
  | @thread w id side ready hpop =>
    have hw := World.Sound.dequeued h ready
    have hrun : (w.run id).Settled := h.runs id
    refine sound_within (hw.setRun id Run.settled_default) ?_ (hrun.fits side.other) (hrun.rests side.other)
    exact Run.firstStep_sound hrun hw.desk side
  | step hgo =>
    obtain ⟨hw, hs, hfits, hrest⟩ := h
    exact sound_within hw (Run.step_sound _ ⟨hs.run, hs.desk, hs.counted⟩ hs.fits) hfits hrest
  | rest hpace => exact h.rest hpace

theorem Reachable.sound {m : Moment} (h : Reachable m) : m.Sound := by
  induction h with
  | fresh host config holds hbus =>
    refine ⟨⟨fun run m hm => ?_, fun s hs => ?_⟩, fun id => ?_⟩
    · cases hm
    · have hlistener := hbus s hs
      cases hl : s.listener with
      | handler run body scope => exact absurd hl (hlistener run body scope)
      | recorder => rfl
      | printer lead => rfl
    · exact Run.settled_default
  | next _ hn ih => exact ih.next hn

theorem Sound.thread {m : Moment} (h : m.Sound) (id : RunId) (side : Side) : (m.thread id side).Fits := by
  cases m with
  | resting w => exact (h.runs id).fits side
  | within w active working s =>
    obtain ⟨hw, hs, hother, -⟩ := h
    simp only [Moment.thread]
    split
    · split
      · exact hs.fits
      · rename_i hside
        obtain rfl : side = working.other := by cases side <;> cases working <;> first | rfl | exact absurd rfl hside
        exact hother
    · exact (hw.runs id).fits side

end Moment

end DeskScript
