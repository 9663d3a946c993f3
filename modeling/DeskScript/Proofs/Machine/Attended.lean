import DeskScript.Proofs.Machine.Waking

set_option autoImplicit false

/-!
# Every reachable moment is attended

What `Step.Attends` says of one step holds of all runs and services of a world that is reached from a world without runs:
at rest by `World.Attended`, within a slice by `Moment.Attended`. Main statement: `Moment.Reachable.attended`.
-/

namespace DeskScript

def Stage.isActive : Stage → Bool
  | .fresh | .ticking .. | .slept | .woken _ => true
  | .parked | .done _ => false

namespace Desk

structure Attended (d : Desk) : Prop where
  active : ∀ service, service < d.services.size → (d.service service).stage.isActive = true →
    .service service ∈ d.ready.toList
  idle : ∀ service, service < d.services.size → (d.service service).work = .idle →
    (d.service service).stage.isCounting = false

theorem Attended.onward {d d' : Desk} (h : d.Attended) (hd : d.Onward d') : d'.Attended := by
  refine ⟨fun service hsize hactive => ?_, fun service hsize hwork => ?_⟩
  · cases hd.stage service hsize with
    | same hold hsame =>
      rw [hsame] at hactive
      exact hd.ready.subset (h.active service hold hactive)
    | woken _ _ _ _ hready => exact hready
    | opened _ _ hready => exact hready
  · cases hd.stage service hsize with
    | same hold hsame =>
      rw [hsame]
      exact h.idle service hold ((hd.owner service hold).2.2.symm.trans hwork)
    | woken _ _ _ hwoken _ =>
      rw [hwoken]
      rfl
    | opened _ hfresh _ =>
      rw [hfresh]
      rfl

end Desk

structure Run.Attended (d : Desk) (id : RunId) (r : Run) : Prop where
  named : r.id = id
  sided : ∀ side, (r.thread side).Sided side
  waits : ∀ side, (r.thread side).Waits d id side
  keeps : ∀ side service releases, (r.thread side).control = .resume service releases → r.governor.Keeps service d
  busy : r.governor.Busy r.worker

namespace Run.Attended

variable {r r' : Run} {d d' : Desk} {id : RunId}

theorem onward (h : r.Attended d id) (hd : d.Onward d') : r.Attended d' id :=
  ⟨h.named, h.sided, fun side => (h.waits side).onward hd,
    fun side service releases hcontrol => (h.keeps side service releases hcontrol).onward hd (fun hidle => hidle) rfl,
    h.busy⟩

/-- A change of the run that its threads do not notice, nor those who wait for idleness. -/
theorem quiet (h : r.Attended d id) (hq : r.Quiet r') (hidle : r'.governor.idle = r.governor.idle)
    (hwaiters : ∀ service ∈ r.governor.waiters, service ∈ r'.governor.waiters) : r'.Attended d id := by
  refine ⟨hq.id.trans h.named, fun side => ?_, fun side => ?_, fun side service releases hcontrol => ?_, ?_⟩
  · rw [hq.thread]
    exact h.sided side
  · rw [hq.thread]
    exact h.waits side
  · rw [hq.thread] at hcontrol
    intro hsize hwork hstage
    obtain ⟨hmem, hbusy⟩ := h.keeps side service releases hcontrol hsize hwork hstage
    exact ⟨hwaiters service hmem, hidle.trans hbusy⟩
  · unfold Governor.Busy
    rw [hidle, hq.worker]
    exact h.busy

theorem fresh (hid : r.id = id) (hmain : r.main = {}) (hworker : r.worker = {}) (hgovernor : r.governor = {}) (d : Desk) :
    r.Attended d id := by
  have hthread (side : Side) : r.thread side = {} := by cases side <;> assumption
  refine ⟨hid, fun side => ?_, fun side => ?_, fun side service releases hcontrol => ?_, ?_⟩
  · rw [hthread]
    exact ⟨nofun, rfl, nofun⟩
  · rw [hthread]
    exact ⟨nofun, nofun⟩
  · rw [hthread] at hcontrol
    cases hcontrol
  · rw [hgovernor]
    intro hbusy
    cases hbusy

end Run.Attended

structure Step.Attended (id : RunId) (side : Side) (s : Step) : Prop where
  named : s.run.id = id
  sided : s.thread.Sided side
  other : (s.run.thread side.other).Sided side.other
  waits : (s.run.thread side.other).Waits s.desk id side.other
  keeps : ∀ service releases, (s.run.thread side.other).control = .resume service releases →
    s.run.governor.Keeps service s.desk
  opened : ∀ service releases, s.thread.control = .resume service releases → s.run.governor.Keeps service s.desk
  rests : s.pace ≠ .go → s.thread.Waits (s.store side).2 id side
  busy : side = .worker → s.run.governor.Busy s.thread
  busyOther : side = .main → s.run.governor.Busy s.run.worker

/-- A step from a run, whose other thread waits, that nobody is forgotten by. -/
theorem Step.Attends.attended {s : Step} {r : Run} {d : Desk} {id : RunId} {side : Side} (h : s.Attends side r d)
    (hkept : r.Kept s.run) (hid : r.id = id) (hother : (r.thread side.other).Sided side.other)
    (hwaits : (r.thread side.other).Waits d id side.other)
    (hkeeps : ∀ service releases, (r.thread side.other).control = .resume service releases → r.governor.Keeps service d)
    (hbusy : side = .main → r.governor.Busy r.worker) : s.Attended id side := by
  have hthread := hkept.thread side.other
  have hrun : s.run.id = id := hkept.id.trans hid
  refine ⟨hrun, h.sided, ?_, ?_, fun service releases hcontrol => ?_, h.opened, ?_, h.busy, fun hmain => ?_⟩
  · rw [hthread]
    exact hother
  · rw [hthread]
    exact hwaits.onward h.desk
  · rw [hthread] at hcontrol
    exact h.keeps service (hkeeps service releases hcontrol)
  · rw [← hrun]
    exact h.rests
  · unfold Governor.Busy
    rw [h.idle hmain, hkept.worker]
    exact hbusy hmain

theorem Step.Attended.step_attends {s : Step} {id : RunId} {side : Side} {other : Nat} (h : s.Attended id side)
    (hs : s.Sound s.run other) : (Run.step side s.run s.desk s.thread).Attends side s.run s.desk := by
  have hsound : (Run.step side s.run s.desk s.thread).Sound s.run other :=
    Run.step_sound side ⟨hs.run, hs.desk, hs.counted⟩ hs.fits
  exact Run.step_attends hs.fits hsound.fits h.sided h.busy

theorem Step.Attended.step {s : Step} {id : RunId} {side : Side} {other : Nat} (h : s.Attended id side)
    (hs : s.Sound s.run other) : (Run.step side s.run s.desk s.thread).Attended id side := by
  have hsound : (Run.step side s.run s.desk s.thread).Sound s.run other :=
    Run.step_sound side ⟨hs.run, hs.desk, hs.counted⟩ hs.fits
  exact (h.step_attends hs).attended hsound.kept h.named h.other h.waits h.keeps h.busyOther

theorem Run.Attended.firstStep_attends {r : Run} {d : Desk} {id : RunId} (h : r.Attended d id) (hr : r.Settled) {d' : Desk}
    (hd' : d'.Sound) (side : Side) : (r.firstStep d' side).Attends side r d' := by
  have hfits := (Run.firstStep_sound hr hd' side).fits
  cases side with
  | main => exact Run.step_attends (hr.fits .main) hfits (h.sided .main) nofun
  | worker =>
    simp only [Run.firstStep] at hfits ⊢
    split
    · exact Run.interruptWorker_attends (hr.fits .worker) (h.sided .worker) h.busy (hr.rests .worker)
    · rename_i hcancelled
      rw [if_neg hcancelled] at hfits
      exact Run.step_attends (hr.fits .worker) hfits (h.sided .worker) fun _ => h.busy

structure World.Attended (w : World) : Prop where
  desk : w.desk.Attended
  runs : ∀ id, id < w.runs.size → (w.run id).Attended w.desk id

namespace World

variable {w w' : World} {id other : RunId} {r : Run}

theorem size_setRun (w : World) (id : RunId) (r : Run) : (w.setRun id r).runs.size = w.runs.size :=
  Array.size_setIfInBounds

theorem run_setRun_ne (w : World) (h : other ≠ id) (r : Run) : (w.setRun id r).run other = w.run other := by
  simp only [run, setRun, Array.getD_eq_getD_getElem?, Array.getElem?_setIfInBounds_ne (Ne.symm h)]

theorem run_setRun_self (w : World) (h : id < w.runs.size) (r : Run) : (w.setRun id r).run id = r := by
  simp only [run, setRun, Array.getD_eq_getD_getElem?, Array.getElem?_setIfInBounds_self_of_lt h, Option.getD_some]

theorem Attended.onward (h : w.Attended) (hruns : w'.runs = w.runs) (hd : w.desk.Onward w'.desk) : w'.Attended := by
  refine ⟨h.desk.onward hd, fun id hid => ?_⟩
  rw [show w'.run id = w.run id by rw [run, run, hruns]]
  exact (h.runs id (hruns ▸ hid)).onward hd

/-- A run that the world does not have is one that has not begun. -/
theorem Attended.anyRun (h : w.Attended) (id : RunId) :
    ∃ name, (w.run id).Attended w.desk name ∧ (id < w.runs.size → name = id) := by
  by_cases hid : id < w.runs.size
  · exact ⟨id, h.runs id hid, fun _ => rfl⟩
  · have hdefault : w.run id = default := by simp [run, Array.getD_eq_getD_getElem?, hid]
    refine ⟨(w.run id).id, .fresh rfl ?_ ?_ ?_ _, fun hsize => absurd hsize hid⟩ <;> rw [hdefault] <;> rfl

theorem Attended.setRun (h : w.Attended) (hr : id < w.runs.size → r.Attended w.desk id) : (w.setRun id r).Attended := by
  refine ⟨h.desk, fun other hother => ?_⟩
  rw [size_setRun] at hother
  by_cases hid : other = id
  · subst hid
    rw [run_setRun_self w hother]
    exact hr hother
  · rw [run_setRun_ne w hid]
    exact h.runs other hother

theorem Attended.addRun (h : w.Attended) (hid : r.id = w.runs.size) (hmain : r.main = {}) (hworker : r.worker = {})
    (hgovernor : r.governor = {}) : (w.addRun r).Attended := by
  have hdesk : w.desk.Onward (w.addRun r).desk := .of_services rfl (List.prefix_refl _)
  refine ⟨h.desk.onward hdesk, fun id hsize => ?_⟩
  have hrun : (w.addRun r).run id = if id = w.runs.size then r else w.run id := by
    simp only [World.addRun, World.run, Array.getD_eq_getD_getElem?, Array.getElem?_push]
    split <;> rfl
  have hsize' : id < w.runs.size + 1 := by simpa [World.addRun] using hsize
  rw [hrun]
  split
  · rename_i hnew
    exact .fresh (hid.trans hnew.symm) hmain hworker hgovernor _
  · rename_i hold
    exact (h.runs id (Nat.lt_of_le_of_ne (Nat.le_of_lt_succ hsize') hold)).onward hdesk

theorem declareAll_governor {r r' : Run} {bindings : List (String × Plain)} (h : declareAll r bindings = .ok r') :
    r'.governor = r.governor := by
  apply declareAll_induction (P := fun r' => r'.governor = r.governor) h _ rfl
  intro r'' heap name v hgovernor
  exact hgovernor

theorem nameFor_same (w : World) (given : Option String) :
    (w.nameFor given).2.runs = w.runs ∧ (w.nameFor given).2.desk = w.desk := by
  unfold World.nameFor
  split
  · split <;> exact ⟨rfl, rfl⟩
  · exact ⟨rfl, rfl⟩

theorem Attended.publish (h : w.Attended) (event : Event) : (w.publish event).Attended :=
  h.onward rfl (w.desk.publish_onward event)

theorem Attended.ready (h : w.Attended) (entry : Ready) (running : Dict RunId) :
    Attended { w with desk := w.desk.enqueue entry, running } :=
  h.onward rfl (w.desk.enqueue_onward entry)

theorem Attended.start (h : w.Attended) (l : Launch) : (w.start l).2.Attended := by
  obtain ⟨hruns, hdesk⟩ := w.nameFor_same l.name
  have hnamed : (w.nameFor l.name).2.Attended := h.onward hruns (hdesk ▸ .refl _)
  simp only [World.start]
  generalize w.nameFor l.name = named at hnamed ⊢
  split
  · split
    · exact ((hnamed.publish _).publish _).addRun rfl rfl rfl rfl
    · exact (hnamed.publish _).addRun rfl rfl rfl rfl
  · split
    · exact hnamed.publish _
    · rename_i r hdeclared
      have hquiet := declareAll_quiet hdeclared
      refine ((hnamed.publish _).addRun ?_ ?_ ?_ ?_).ready _ _
      · exact hquiet.id
      · exact hquiet.main
      · exact hquiet.worker
      · exact declareAll_governor hdeclared

theorem Attended.cancel (h : w.Attended) (id : RunId) : (w.cancel id).Attended := by
  simp only [World.cancel]
  split
  · exact h
  · have hdesk : w.desk.Onward (((w.run id).cancelled w.desk).1.revoke ((w.run id).cancelled w.desk).2).2 := by
      refine (w.desk.interruptAll_onward (w.run id).governor.pending).trans ?_
      exact .of_services rfl (List.prefix_refl _)
    refine Attended.setRun ?_ fun hid => ?_
    · exact h.onward rfl hdesk
    · exact ((h.runs id hid).onward hdesk).quiet (((w.run id).cancelled_quiet w.desk).trans (Run.revoke_quiet _ _)) rfl
        fun _ hmem => hmem

theorem Attended.driven (h : w.Attended) (hdriven : w.Driven w') : w'.Attended := by
  have hhost {host : Host} : w.desk.Onward { w.desk with host } := .of_services rfl (List.prefix_refl _)
  cases hdriven with
  | start l => exact h.start l
  | launch name hparse limits startedAt heap scopes =>
    refine Attended.ready ?_ _ _
    exact h.addRun rfl rfl rfl rfl
  | publish event => exact h.publish event
  | cancel id => exact h.cancel id
  | answer p => exact h.onward rfl (w.desk.answer_onward p)
  | wait awaited => exact h.onward rfl (.refl _)
  | turn => exact h.onward rfl (w.desk.enqueue_onward _)
  | configure config => exact h.onward rfl (.refl _)
  | listen pattern hl => exact h.onward rfl hhost
  | unlisten token => exact h.onward rfl hhost
  | host hbus => exact h.onward rfl hhost

end World

namespace Thread

variable {t : Thread} {d d' : Desk} {id : RunId} {side : Side}

theorem Waits.dequeued (h : t.Waits d id side) {entry : Ready} {ready : Queue Ready}
    (hpop : d.ready.toList = entry :: ready.toList) (hentry : entry ≠ .thread id side) :
    t.Waits { d with ready } id side := by
  have hrest (hmem : .thread id side ∈ d.ready.toList) : .thread id side ∈ ready.toList := by
    rw [hpop] at hmem
    exact (List.mem_cons.1 hmem).resolve_left (Ne.symm hentry)
  refine ⟨fun hcontrol => hrest (h.recheck hcontrol), fun service releases hcontrol => ?_⟩
  obtain ⟨hsize, hrun, hside, hwork, hdone⟩ := h.resume service releases hcontrol
  exact ⟨hsize, hrun, hside, hwork, fun result hresult => hrest (hdone result hresult)⟩

theorem Waits.served (h : t.Waits d id side) {r r' : Run} {service : ServiceId} (hd : r.Serves d service r' d') :
    t.Waits d' id side := by
  refine ⟨fun hcontrol => hd.ready.subset (h.recheck hcontrol), fun other releases hcontrol => ?_⟩
  obtain ⟨hsize, hrun, hside, hwork, hdone⟩ := h.resume other releases hcontrol
  by_cases hother : other = service
  · subst hother
    obtain ⟨hrun', hside', hwork'⟩ := hd.owner
    refine ⟨hd.size ▸ hsize, hrun'.trans hrun, hside'.trans hside, fun hhead => hwork'.trans (hwork hhead),
      fun result hresult => ?_⟩
    cases hd.outcome hsize with
    | same hstage _ => exact hd.ready.subset (hdone result (hstage.symm.trans hresult))
    | done _ _ hready => rwa [hrun, hside] at hready
    | parked _ hstage _ => rw [hstage] at hresult; cases hresult
    | again hstage _ _ => rw [hresult] at hstage; cases hstage
  · rw [hd.others other hother]
    exact ⟨hd.size ▸ hsize, hrun, hside, hwork, fun result hresult => hd.ready.subset (hdone result hresult)⟩

end Thread

theorem Run.Attended.dequeued {r : Run} {d : Desk} {id : RunId} (h : r.Attended d id) {entry : Ready}
    {ready : Queue Ready} (hpop : d.ready.toList = entry :: ready.toList) (hentry : ∀ side, entry ≠ .thread id side) :
    r.Attended { d with ready } id :=
  ⟨h.named, h.sided, fun side => (h.waits side).dequeued hpop (hentry side), h.keeps, h.busy⟩

theorem Run.Attended.served {r owner owner' : Run} {d d' : Desk} {id : RunId} {service : ServiceId} (h : r.Attended d id)
    (hd : owner.Serves d service owner' d') (hother : (d.service service).run ≠ id) : r.Attended d' id := by
  refine ⟨h.named, h.sided, fun side => (h.waits side).served hd, fun side other releases hcontrol => ?_, h.busy⟩
  obtain ⟨hsize, hrun, -⟩ := (h.waits side).resume other releases hcontrol
  have hne : other ≠ service := by
    rintro rfl
    exact hother hrun
  have hkeeps := h.keeps side other releases hcontrol
  unfold Governor.Keeps
  rwa [hd.others other hne, hd.size]

theorem Run.Attended.serves {r r' : Run} {d d' : Desk} {id : RunId} {service : ServiceId} (h : r.Attended d id)
    (hquiet : r.Quiet r') (hd : r.Serves d service r' d') : r'.Attended d' id := by
  refine ⟨hquiet.id.trans h.named, fun side => ?_, fun side => ?_, fun side other releases hcontrol => ?_, ?_⟩
  · rw [hquiet.thread]
    exact h.sided side
  · rw [hquiet.thread]
    exact (h.waits side).served hd
  · rw [hquiet.thread] at hcontrol
    have hkeeps := h.keeps side other releases hcontrol
    intro hsize hwork hstage
    rw [hd.size] at hsize
    by_cases hother : other = service
    · subst hother
      rw [hd.owner.2.2] at hwork
      cases hd.outcome hsize with
      | same hsame _ =>
        obtain ⟨hmem, hbusy⟩ := hkeeps hsize hwork (hsame.symm.trans hstage)
        exact ⟨hd.waiters other hmem, hd.idle.trans hbusy⟩
      | done _ hdone _ => rw [hdone] at hstage; cases hstage
      | parked _ _ hwaits => exact hwaits hwork
      | again hcounting _ _ => rw [hstage] at hcounting; cases hcounting
    · rw [hd.others other hother] at hwork hstage
      obtain ⟨hmem, hbusy⟩ := hkeeps hsize hwork hstage
      exact ⟨hd.waiters other hmem, hd.idle.trans hbusy⟩
  · unfold Governor.Busy
    rw [hd.idle, hquiet.worker]
    exact h.busy

theorem Desk.Attended.dequeued {d : Desk} (h : d.Attended) {entry : Ready} {ready : Queue Ready}
    (hpop : d.ready.toList = entry :: ready.toList) (hentry : ∀ service, entry ≠ .service service) :
    Desk.Attended { d with ready } := by
  refine ⟨fun service hsize hactive => ?_, h.idle⟩
  have hmem := h.active service hsize hactive
  rw [hpop] at hmem
  exact (List.mem_cons.1 hmem).resolve_left (Ne.symm (hentry service))

/-- The service that makes a step was taken from the queue. -/
theorem Desk.Attended.served {d d' : Desk} {service : ServiceId} {ready : Queue Ready} {r r' : Run} (h : d.Attended)
    (hpop : d.ready.toList = .service service :: ready.toList) (hd : r.Serves { d with ready } service r' d') :
    d'.Attended := by
  refine ⟨fun other hsize hactive => ?_, fun other hsize hwork => ?_⟩
  all_goals
    rw [hd.size] at hsize
    by_cases hother : other = service
  · subst hother
    cases hd.outcome hsize with
    | same hstage hwaits =>
      rw [hstage] at hactive
      rcases hwaits with hwaits | ⟨result, hwaits⟩ <;> (rw [hwaits] at hactive; cases hactive)
    | done _ hstage _ => rw [hstage] at hactive; cases hactive
    | parked _ hstage _ => rw [hstage] at hactive; cases hactive
    | again _ hready _ => exact hready
  · rw [hd.others other hother] at hactive
    have hmem := h.active other hsize hactive
    rw [hpop] at hmem
    refine hd.ready.subset ((List.mem_cons.1 hmem).resolve_left fun hsame => hother ?_)
    exact Ready.service.inj hsame
  · subst hother
    rw [hd.owner.2.2] at hwork
    have hidle : (d.service other).stage.isCounting = false := h.idle other hsize hwork
    cases hd.outcome hsize with
    | same hstage _ =>
      rw [hstage]
      exact hidle
    | done _ hstage _ => rw [hstage]; rfl
    | parked _ hstage _ => rw [hstage]; rfl
    | again _ _ hbefore =>
      rcases hbefore with ⟨-, hother⟩ | hcounting
      · exact absurd hwork hother
      · exact absurd (hcounting.symm.trans hidle) nofun
  · rw [hd.others other hother] at hwork ⊢
    exact h.idle other hsize hwork

/-- The step of a service is a step of the run that it works for. -/
theorem World.run_advance_service (w : World) (service : ServiceId) (id : RunId) (hid : id < w.runs.size) :
    (w.advance (.service service)).run id =
      if id = (w.desk.service service).run then ((w.run id).stepService w.desk service).1 else w.run id := by
  have hadvance (r : Run) (desk : Desk) :
      (({ w.setRun (w.desk.service service).run default with desk }).setRun (w.desk.service service).run r).run id =
        if id = (w.desk.service service).run then r else w.run id := by
    split
    · rename_i howner
      rw [← howner]
      exact run_setRun_self _ ((w.size_setRun id default).symm ▸ hid) r
    · rename_i howner
      exact (run_setRun_ne _ howner r).trans (run_setRun_ne w howner default)
  refine (hadvance _ _).trans ?_
  split
  · rename_i howner
    rw [howner]
    rfl
  · rfl

theorem World.Attended.advance {w : World} (h : w.Attended) (hw : w.Sound) {entry : Ready} {ready : Queue Ready}
    (hpop : w.desk.ready.pop? = some (entry, ready)) (hentry : ∀ id side, entry ≠ .thread id side) :
    ((w.dequeued ready).advance entry).Attended := by
  have hready := Queue.toList_of_pop? _ _ _ hpop
  have hdequeued (hservice : ∀ service, entry ≠ .service service) : (w.dequeued ready).Attended :=
    ⟨h.desk.dequeued hready hservice, fun id hid => (h.runs id hid).dequeued hready (hentry id)⟩
  cases entry with
  | thread id side => exact absurd rfl (hentry id side)
  | service service =>
    have hserves (r : Run) := r.stepService_serves (w.dequeued ready).desk service
    refine ⟨h.desk.served hready (hserves _), fun id hid => ?_⟩
    have hsize : id < (w.dequeued ready).runs.size := by simpa [World.advance, size_setRun] using hid
    have hrun := (h.runs id hsize).dequeued hready (hentry id)
    rw [run_advance_service _ _ _ hsize]
    split
    · rename_i howner
      subst howner
      exact hrun.serves (Run.stepService_sound _ (hw.dequeued ready).desk service).1 (hserves _)
    · rename_i howner
      exact hrun.served (hserves _) (Ne.symm howner)
  | gathered id => exact (hdequeued nofun).onward rfl (Desk.enqueue_onward _ _)
  | forget id => exact (hdequeued nofun).onward rfl (.refl _)
  | controller => exact hdequeued nofun

namespace World

variable {id : RunId}

theorem store_rest (w : World) (id : RunId) (side : Side) (s : Step) :
    (s.store side).2.Onward (w.rest id side s).desk := by
  unfold rest
  dsimp only
  split
  · simp only [concluded]
    split
    · exact (Desk.enqueue_onward _ _).trans (Desk.enqueue_onward _ _)
    · exact Desk.enqueue_onward _ _
  · exact .refl _

theorem desk_rest (w : World) (id : RunId) (side : Side) (s : Step) : s.desk.Onward (w.rest id side s).desk := by
  refine Desk.Onward.trans ?_ (w.store_rest id side s)
  unfold Step.store
  dsimp only
  split
  · exact s.desk.enqueue_onward _
  · exact .refl _

theorem runs_rest (w : World) (id : RunId) (side : Side) (s : Step) :
    (w.rest id side s).runs = (w.setRun id (s.store side).1).runs := by
  unfold rest
  dsimp only
  split
  · simp only [concluded]
    split <;> rfl
  · rfl

theorem run_rest_ne (w : World) {other : RunId} (h : other ≠ id) (side : Side) (s : Step) :
    (w.rest id side s).run other = w.run other := by
  rw [← run_setRun_ne w h (s.store side).1, run, run, runs_rest]

theorem run_rest_self (w : World) (h : id < w.runs.size) (side : Side) (s : Step) :
    (w.rest id side s).run id = (s.store side).1 := by
  rw [← run_setRun_self w h (s.store side).1, run, run, runs_rest]

end World

namespace Moment

def desk : Moment → Desk
  | resting w => w.desk
  | within _ _ _ s => s.desk

def size : Moment → Nat
  | resting w => w.runs.size
  | within w _ _ _ => w.runs.size

/-- A world at rest is attended; within a slice, so are the step reached and all other runs. -/
def Attended : Moment → Prop
  | resting w => w.Attended
  | within w id side s =>
    s.desk.Attended ∧ (∃ name, s.Attended name side ∧ (id < w.runs.size → name = id)) ∧
      ∀ other, other < w.runs.size → other ≠ id → (w.run other).Attended s.desk other

theorem Attended.rest {w : World} {id : RunId} {side : Side} {s : Step} (h : Attended (within w id side s))
    (hpace : s.pace ≠ .go) : (w.rest id side s).Attended := by
  obtain ⟨hdesk, ⟨name, hs, hname⟩, hothers⟩ := h
  have honward := w.desk_rest id side s
  have hrests := (hs.rests hpace).onward (w.store_rest id side s)
  refine ⟨hdesk.onward honward, fun other hother => ?_⟩
  rw [World.runs_rest, World.size_setRun] at hother
  by_cases hid : other = id
  · subst hid
    rw [World.run_rest_self w hother]
    obtain rfl := hname hother
    cases side with
    | main => exact ⟨hs.named, fun
        | .main => hs.sided
        | .worker => hs.other, fun
        | .main => hrests
        | .worker => hs.waits.onward honward, fun
        | .main => fun service releases hcontrol => (hs.opened service releases hcontrol).onward honward (fun h => h) rfl
        | .worker => fun service releases hcontrol =>
          (hs.keeps service releases hcontrol).onward honward (fun h => h) rfl, hs.busyOther rfl⟩
    | worker => exact ⟨hs.named, fun
        | .main => hs.other
        | .worker => hs.sided, fun
        | .main => hs.waits.onward honward
        | .worker => hrests, fun
        | .main => fun service releases hcontrol =>
          (hs.keeps service releases hcontrol).onward honward (fun h => h) rfl
        | .worker => fun service releases hcontrol =>
          (hs.opened service releases hcontrol).onward honward (fun h => h) rfl, hs.busy rfl⟩
  · rw [World.run_rest_ne w hid]
    exact (hothers other hother hid).onward honward

theorem Attended.next {m n : Moment} (h : m.Attended) (hsound : m.Sound) (hn : Next m n) : n.Attended := by
  cases hn with
  | driven hdriven => exact World.Attended.driven h hdriven
  | waited hempty hdesk => exact World.Attended.onward h rfl (Desk.waitForWorld_onward hdesk)
  | entry hpop hentry => exact World.Attended.advance h hsound hpop hentry
  | @thread w id side ready hpop =>
    have hready := Queue.toList_of_pop? _ _ _ hpop
    have hdesk : (w.dequeued ready).desk.Attended := World.Attended.desk h |>.dequeued hready nofun
    obtain ⟨name, hrun, hname⟩ := World.Attended.anyRun h id
    have hother : (Ready.thread id side) ≠ .thread name side.other := by cases side <;> nofun
    have hattends := hrun.firstStep_attends (hsound.runs id) (World.Sound.dequeued hsound ready).desk side
    have hsound' := Run.firstStep_sound (hsound.runs id) (World.Sound.dequeued hsound ready).desk side
    have hstep := hattends.attended hsound'.kept hrun.named (hrun.sided side.other)
      ((hrun.waits side.other).dequeued hready hother) (hrun.keeps side.other) fun _ => hrun.busy
    have honward := hattends.desk
    refine ⟨hdesk.onward honward, ⟨name, hstep, fun hid => hname ?_⟩, fun other hsize hne => ?_⟩
    · simpa [World.size_setRun, World.dequeued] using hid
    · rw [World.run_setRun_ne _ hne]
      rw [World.size_setRun] at hsize
      have hentry (side' : Side) : Ready.thread id side ≠ .thread other side' := by
        intro hsame
        exact hne (Ready.thread.inj hsame).1.symm
      exact (((World.Attended.runs h other hsize).dequeued hready hentry).onward honward)
  | @step w id side s hgo =>
    obtain ⟨hdesk, ⟨name, hstep, hname⟩, hothers⟩ := h
    obtain ⟨-, hs, -, -⟩ := hsound
    have honward := (hstep.step_attends hs).desk
    exact ⟨hdesk.onward honward, ⟨name, hstep.step hs, hname⟩,
      fun other hsize hne => (hothers other hsize hne).onward honward⟩
  | rest hpace => exact h.rest hpace

theorem Reachable.attended {m : Moment} (h : Reachable m) : m.Attended := by
  induction h with
  | fresh host config holds hbus =>
    refine ⟨⟨fun service hsize => ?_, fun service hsize => ?_⟩, fun id hid => ?_⟩
    · exact absurd hsize (Nat.not_lt_zero service)
    · exact absurd hsize (Nat.not_lt_zero service)
    · exact absurd hid (Nat.not_lt_zero id)
  | next hm hn ih => exact ih.next hm.sound hn

end Moment

end DeskScript
