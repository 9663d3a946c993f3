import DeskScript.Proofs.Machine.Calm
import DeskScript.Proofs.Machine.Settled

set_option autoImplicit false

/-!
# Nobody is forgotten

A thread at rest is in the queue, or it waits for a service; a service that is not done is in the queue, or it waits to be
woken; a service that waits for idleness is woken when no handler is busy; and while a handler is busy, its worker is on
its way. Main statement: `Moment.Reachable.attended`.
-/

namespace DeskScript

def Control.isOf (side : Side) : Control → Bool
  | .receive => side = .worker
  | .settle _ => side = .main
  | .resume _ releases => releases = decide (side = .worker)
  | _ => true

def Control.isBare (side : Side) : Control → Bool
  | .receive => side = .worker
  | .settle _ => side = .main
  | .finished => true
  | _ => false

namespace Thread

structure Sided (side : Side) (t : Thread) : Prop where
  frames : ∀ frame ∈ t.stack, frame.isOf side = true
  control : t.control.isOf side = true
  asks : ∀ work, t.control = .request work → t.stack.head? = some .clearing → work = .idle

/-- A thread at rest that yielded is ready, and one that waits for a service is ready as soon as that is done. -/
structure Waits (d : Desk) (id : RunId) (side : Side) (t : Thread) : Prop where
  recheck : t.control = .recheck → .thread id side ∈ d.ready.toList
  resume : ∀ service releases, t.control = .resume service releases →
    service < d.services.size ∧ (d.service service).run = id ∧ (d.service service).side = side ∧
    (t.stack.head? = some .clearing → (d.service service).work = .idle) ∧
    ∀ result, (d.service service).stage = .done result → .thread id side ∈ d.ready.toList

theorem Waits.onward {d d' : Desk} {id : RunId} {side : Side} {t : Thread} (h : t.Waits d id side) (hd : d.Onward d') :
    t.Waits d' id side := by
  refine ⟨fun hcontrol => hd.ready.subset (h.recheck hcontrol), fun service releases hcontrol => ?_⟩
  obtain ⟨hsize, hrun, hside, hwork, hdone⟩ := h.resume service releases hcontrol
  obtain ⟨hrun', hside', hwork'⟩ := hd.owner service hsize
  refine ⟨Nat.lt_of_lt_of_le hsize hd.size, hrun'.trans hrun, hside'.trans hside, fun hhead => hwork'.trans (hwork hhead),
    fun result hresult => ?_⟩
  cases hd.stage service (Nat.lt_of_lt_of_le hsize hd.size) with
  | same _ hstage => exact hd.ready.subset (hdone result (hstage.symm.trans hresult))
  | woken _ _ _ hwoken _ => rw [hwoken] at hresult; cases hresult
  | opened hnew _ _ => exact absurd hsize (Nat.not_lt.2 hnew)

end Thread

namespace Governor

/-- While a handler is busy, its worker runs it, and does not wait for a service. -/
def Busy (g : Governor) (worker : Thread) : Prop :=
  g.idle = false → worker.stack ≠ [] ∧ ∀ service releases, worker.control ≠ .resume service releases

/-- If the service waits for idleness, the governor keeps it, and a handler is busy. -/
def Keeps (g : Governor) (service : ServiceId) (d : Desk) : Prop :=
  service < d.services.size → (d.service service).work = .idle → (d.service service).stage = .parked →
    service ∈ g.waiters ∧ g.idle = false

variable {g g' : Governor} {service : ServiceId} {d d' : Desk}

/-- What waits on after the desk went onward has waited before. -/
theorem Keeps.before (h : g.Keeps service d) (hd : d.Onward d') (hsize : service < d'.services.size)
    (hwork : (d'.service service).work = .idle) (hstage : (d'.service service).stage = .parked) :
    service < d.services.size ∧ service ∈ g.waiters ∧ g.idle = false := by
  cases hd.stage service hsize with
  | same hold hsame =>
    obtain ⟨-, -, hwork'⟩ := hd.owner service hold
    exact ⟨hold, h hold (hwork'.symm.trans hwork) (hsame.symm.trans hstage)⟩
  | woken _ _ _ hwoken _ => rw [hwoken] at hstage; cases hstage
  | opened _ hfresh _ => rw [hfresh] at hstage; cases hstage

theorem Keeps.onward (h : g.Keeps service d) (hd : d.Onward d') (hidle : g.idle = false → g'.idle = false)
    (hwaiters : g'.waiters = g.waiters) : g'.Keeps service d' := by
  intro hsize hwork hstage
  obtain ⟨-, hmem, hbusy⟩ := h.before hd hsize hwork hstage
  exact ⟨hwaiters ▸ hmem, hidle hbusy⟩

end Governor

theorem Desk.wakeAll_woken (d : Desk) {ids : List ServiceId} {service : ServiceId} (hmem : service ∈ ids)
    (hsize : service < d.services.size) : ((d.wakeAll ids).service service).stage ≠ .parked := by
  have hlater {d d' : Desk} (hd : d.Onward d') (hsize : service < d.services.size)
      (hstage : (d.service service).stage ≠ .parked) : (d'.service service).stage ≠ .parked := by
    cases hd.stage service (Nat.lt_of_lt_of_le hsize hd.size) with
    | same _ hsame => rwa [hsame]
    | woken _ hparked _ _ _ => exact absurd hparked hstage
    | opened hnew _ _ => exact absurd hsize (Nat.not_lt.2 hnew)
  have hwake (d : Desk) (hsize : service < d.services.size) : ((d.wake service (.ok .null)).service service).stage ≠ .parked := by
    unfold wake
    split
    · change (({ d with services := d.services.modify service _ } : Desk).service service).stage ≠ .parked
      rw [service_modify, if_pos ⟨rfl, hsize⟩]
      nofun
    · assumption
  unfold wakeAll
  -- The service is woken in its turn, and waking those behind it does not park it again.
  induction ids generalizing d with
  | nil => cases hmem
  | cons id ids ih =>
    rw [List.foldl_cons]
    have hsize' := Nat.lt_of_lt_of_le hsize (d.wake_onward id (.ok .null)).size
    rcases List.mem_cons.1 hmem with rfl | hmem
    · exact hlater (foldl_onward (fun d id => d.wake_onward id _) ids _) hsize' (hwake d hsize)
    · exact ih _ hmem hsize'

namespace Run

variable {side : Side} {r r' : Run} {d d' : Desk} {stack : List Frame} {t : Thread} {s : Step}

theorem becomeIdle_keeps {service : ServiceId} (h : r.governor.Keeps service d) :
    (r.becomeIdle d).1.governor.Keeps service (r.becomeIdle d).2 := by
  unfold becomeIdle
  split
  · exact h
  · intro hsize hwork hstage
    obtain ⟨hold, hmem, -⟩ := h.before (d.wakeAll_onward _) hsize hwork hstage
    exact absurd hstage (d.wakeAll_woken hmem hold)

theorem becomeIdle_onward (r : Run) (d : Desk) : d.Onward (r.becomeIdle d).2 := by
  unfold becomeIdle
  split
  · exact .refl d
  · exact d.wakeAll_onward _

theorem becomeIdle_idle (r : Run) (d : Desk) : (r.becomeIdle d).1.governor.idle = true := by
  unfold becomeIdle
  split
  · assumption
  · rfl

theorem handlerFinished_onward (r : Run) (d : Desk) : d.Onward (r.handlerFinished d).2 :=
  (becomeIdle_onward { r with governor := { r.governor with handling := false } } d).trans (Desk.handled_onward _ _)

theorem handlerFinished_idle (r : Run) (d : Desk) : (r.handlerFinished d).1.governor.idle = true :=
  becomeIdle_idle { r with governor := { r.governor with handling := false } } d

theorem handlerFinished_keeps {service : ServiceId} (h : r.governor.Keeps service d) :
    (r.handlerFinished d).1.governor.Keeps service (r.handlerFinished d).2 := by
  have hfinished : ({ r with governor := { r.governor with handling := false } } : Run).governor.Keeps service d := h
  exact (becomeIdle_keeps hfinished).onward (Desk.handled_onward _ _) (fun hidle => hidle) rfl

end Run

structure Step.Attends (side : Side) (r : Run) (d : Desk) (s : Step) : Prop where
  desk : d.Onward s.desk
  sided : s.thread.Sided side
  rests : s.pace ≠ .go → s.thread.Waits (s.store side).2 s.run.id side
  keeps : ∀ service, r.governor.Keeps service d → s.run.governor.Keeps service s.desk
  opened : ∀ service releases, s.thread.control = .resume service releases → s.run.governor.Keeps service s.desk
  idle : side = .main → s.run.governor.idle = r.governor.idle
  busy : side = .worker → s.run.governor.Busy s.thread

theorem Thread.Fits.stack_ne_nil {t : Thread} (h : t.Fits) (hinner : t.control.atRest = false) : t.stack ≠ [] := by
  have hstacked {need : Need} (hs : Stacked need t.stack) : t.stack ≠ [] := by
    intro hempty
    rw [hempty] at hs
    exact hs
  unfold Thread.Fits at h
  cases hcontrol : t.control <;> rw [hcontrol] at h hinner
  case statements | perform | ended => exact hstacked h.1
  case evaluate | value | checkpoint | clear | passed | request | replied => exact hstacked h
  case raised => exact hstacked h.choose_spec
  all_goals cases hinner

theorem Control.isOf_of_inner {control : Control} (h : control.atRest = false) (side : Side) : control.isOf side = true := by
  cases control <;> first | rfl | cases h

theorem Control.not_resume_of_inner {control : Control} (h : control.atRest = false) (service : ServiceId)
    (releases : Bool) : control ≠ .resume service releases := by
  rintro rfl
  cases h

namespace Run

variable {side : Side} {r r' : Run} {d d' : Desk} {stack : List Frame} {control : Control} {t : Thread}

theorem attends_go (hdesk : d.Onward d') (hframes : ∀ frame ∈ stack, frame.isOf side = true)
    (hfits : control.Fits stack) (hinner : control.atRest = false)
    (hasks : ∀ work, control = .request work → stack.head? = some .clearing → work = .idle)
    (hidle : r'.governor.idle = r.governor.idle) (hwaiters : r'.governor.waiters = r.governor.waiters) :
    (Step.go r' d' control stack).Attends side r d := by
  have hne : stack ≠ [] := Thread.Fits.stack_ne_nil (t := ⟨control, stack⟩) hfits hinner
  have hresume := Control.not_resume_of_inner hinner
  refine ⟨hdesk, ⟨hframes, Control.isOf_of_inner hinner side, hasks⟩, fun hgo => absurd rfl hgo, fun _ hkeeps => ?_,
    fun service releases h => absurd h (hresume service releases), fun _ => hidle, fun _ _ => ⟨hne, hresume⟩⟩
  exact hkeeps.onward hdesk (fun hbusy => hidle.trans hbusy) hwaiters

theorem attends_raise (hdesk : d.Onward d') (hframes : ∀ frame ∈ stack, frame.isOf side = true) {need : Need}
    (hs : Stacked need stack) (hidle : r'.governor.idle = r.governor.idle)
    (hwaiters : r'.governor.waiters = r.governor.waiters) (e : Raised) : (Step.raise r' d' e stack).Attends side r d :=
  attends_go hdesk hframes ⟨need, hs⟩ rfl nofun hidle hwaiters

theorem attends_of_calm {s : Step} (h : s.Calm side r d t.control t.stack) (hsided : t.Sided side) (hfits : s.thread.Fits) :
    s.Attends side r d := by
  obtain ⟨run, desk, ⟨control, stack⟩, pace⟩ := s
  obtain rfl : pace = .go := h.pace
  refine attends_go h.deed.onward (fun frame hframe => ?_) hfits h.inner (fun work hwork hhead => ?_)
    (congrArg Governor.idle h.alike.governor) (congrArg Governor.waiters h.alike.governor)
  · exact (h.frames frame hframe).elim (hsided.frames frame) fun hinner => (Bool.and_eq_true_iff.1 hinner).1
  · obtain ⟨frame, hframe, hasks⟩ := h.asks work hwork
    obtain rfl : frame = .clearing := Option.some.inj (hframe.symm.trans hhead)
    exact hasks.idle_of_clearing

/-- A thread that comes to an empty stack, while no handler is busy. -/
theorem attends_bare (side : Side) (control : Control) (pace : Pace) (hbare : control.isBare side = true)
    (hdesk : d.Onward d') (hkeeps : ∀ service, r.governor.Keeps service d → r'.governor.Keeps service d')
    (hidle : side = .main → r'.governor.idle = r.governor.idle) (hworker : side = .worker → r'.governor.idle = true) :
    Step.Attends side r d ⟨r', d', ⟨control, []⟩, pace⟩ := by
  have hbusy (hside : side = .worker) : r'.governor.Busy ⟨control, []⟩ := by
    intro hfalse
    rw [hworker hside] at hfalse
    cases hfalse
  cases control with
  | receive | settle _ | finished =>
    exact ⟨hdesk, ⟨List.forall_mem_nil _, hbare, nofun⟩, fun _ => ⟨nofun, nofun⟩, hkeeps, nofun, hidle, hbusy⟩
  | _ => cases hbare

theorem checkpoint_attends (hframes : ∀ frame ∈ stack, frame.isOf side = true) (hs : Stacked .leave stack) :
    (r.checkpoint d stack).Attends side r d := by
  unfold checkpoint
  split
  · exact attends_raise (.refl d) hframes hs rfl rfl _
  · dsimp only
    split
    · refine attends_raise (.refl d) hframes hs ?_ ?_ _ <;> rfl
    · refine ⟨.refl d, ⟨hframes, rfl, nofun⟩, fun _ => ⟨fun _ => Desk.mem_enqueue _ _, nofun⟩, fun _ hkeeps => hkeeps,
        nofun, fun _ => rfl, fun _ _ => ⟨?_, nofun⟩⟩
      rintro rfl
      exact hs
    · exact attends_go (.refl d) hframes hs rfl nofun rfl rfl

theorem waits_open (d : Desk) (id : RunId) (side : Side) (work : Work) (releases : Bool)
    (hasks : stack.head? = some .clearing → work = .idle) :
    Thread.Waits (d.open_ id side work).2 id side ⟨.resume d.services.size releases, stack⟩ := by
  refine ⟨nofun, fun service releases' hcontrol => ?_⟩
  cases hcontrol
  rw [Desk.size_open, Desk.service_open, if_pos rfl]
  refine ⟨Nat.lt_succ_self _, rfl, rfl, hasks, fun result hdone => ?_⟩
  cases hdone

theorem keeps_open (g : Governor) (d : Desk) (id : RunId) (side : Side) (work : Work) :
    g.Keeps d.services.size (d.open_ id side work).2 := by
  intro _ _ hstage
  rw [Desk.service_open, if_pos rfl] at hstage
  cases hstage

theorem request_attends (hframes : ∀ frame ∈ stack, frame.isOf side = true) (hs : Stacked .reply stack) (work : Work)
    (hasks : stack.head? = some .clearing → work = .idle) : (r.request d side work stack).Attends side r d := by
  unfold request
  split
  · exact attends_raise (.refl d) hframes hs rfl rfl _
  · have hopen := d.open_onward r.id side work
    cases side with
    | main =>
      refine ⟨hopen, ⟨hframes, rfl, nofun⟩, fun _ => waits_open d r.id .main work false hasks, fun _ hkeeps => ?_,
        fun service releases hcontrol => ?_, fun _ => rfl, nofun⟩
      · exact hkeeps.onward hopen (fun hidle => hidle) rfl
      · cases hcontrol
        exact keeps_open _ d r.id .main work
    | worker =>
      have hid := (becomeIdle_quiet { r with governor := { r.governor with
        pending := r.governor.pending ++ [(d.open_ r.id .worker work).1] } } (d.open_ r.id .worker work).2).id
      refine ⟨hopen.trans (becomeIdle_onward _ _), ⟨hframes, rfl, nofun⟩, fun _ => ?_, fun _ hkeeps => ?_,
        fun service releases hcontrol => ?_, nofun, fun _ hbusy => ?_⟩
      · change Thread.Waits _ (Run.id (becomeIdle _ _).1) _ _
        rw [hid]
        exact (waits_open d r.id .worker work true hasks).onward (becomeIdle_onward _ _)
      · refine becomeIdle_keeps ?_
        exact hkeeps.onward hopen (fun hidle => hidle) rfl
      · cases hcontrol
        exact becomeIdle_keeps (keeps_open _ d r.id .worker work)
      · have hidle := becomeIdle_idle { r with governor := { r.governor with
          pending := r.governor.pending ++ [(d.open_ r.id .worker work).1] } } (d.open_ r.id .worker work).2
        exact absurd (hidle.symm.trans hbusy) nofun

theorem resume_attends (hframes : ∀ frame ∈ stack, frame.isOf side = true) (hs : Stacked .reply stack) (id : ServiceId)
    (releases interrupted : Bool) (hreleases : (Control.resume id releases).isOf side = true) :
    (r.resume d id releases interrupted stack).Attends side r d := by
  have hne : stack ≠ [] := by
    rintro rfl
    exact hs
  have hattends (control : Control) (hcontrol : control.Fits stack) (hinner : control.atRest = false)
      (hasks : ∀ work, control ≠ .request work) :
      (Step.go { r with governor := { r.governor with
        pending := r.governor.pending.erase id, idle := r.governor.idle && !(releases && r.governor.handling) } } d
        control stack).Attends side r d := by
    have hresume := Control.not_resume_of_inner hinner
    cases side with
    | main =>
      obtain rfl : releases = false := by simpa [Control.isOf] using hreleases
      exact attends_go (.refl d) hframes hcontrol hinner (fun work h => absurd h (hasks work)) (Bool.and_true _) rfl
    | worker =>
      refine ⟨.refl d, ⟨hframes, Control.isOf_of_inner hinner _, fun work h => absurd h (hasks work)⟩,
        fun hgo => absurd rfl hgo, fun other hkeeps => ?_, fun service _ h => absurd h (hresume service _), (by simp),
        fun _ _ => ⟨hne, hresume⟩⟩
      refine hkeeps.onward (.refl d) (fun hbusy => ?_) rfl
      change (r.governor.idle && _) = false
      rw [hbusy]
      rfl
  simp only [resume]
  split
  · exact hattends _ ⟨_, hs⟩ rfl (by simp)
  · split
    · exact hattends _ ⟨_, hs⟩ rfl (by simp)
    · exact hattends _ hs rfl (by simp)
    · exact hattends _ ⟨_, hs⟩ rfl (by simp)

theorem cancelWorker_onward (r : Run) (d : Desk) : d.Onward (r.cancelWorker d).2 := by
  unfold cancelWorker
  split
  · exact d.enqueue_onward _
  · split
    · exact .refl d
    · exact d.interrupt_onward _
  · dsimp only
    split
    · exact (d.modifyBox_onward r.id _).trans (Desk.enqueue_onward _ _)
    · exact d.modifyBox_onward r.id _

theorem cancelWorker_governor (r : Run) (d : Desk) : (r.cancelWorker d).1.governor = r.governor := by
  unfold cancelWorker
  split
  · rfl
  · split <;> rfl
  · rfl

theorem close_attends (r : Run) (d : Desk) (ending : Ending) : (r.close d ending).Attends .main r d := by
  have hclosed : d.Onward (r.revoke (d.modifyBox r.id fun b => { b with closed := true })).2 :=
    .of_services rfl (List.prefix_refl _)
  generalize hrevoked : r.revoke (d.modifyBox r.id fun b => { b with closed := true }) = revoked at hclosed
  have hgovernor : revoked.1.governor = r.governor := by rw [← hrevoked]; rfl
  have hdesk := (hclosed.trans (Desk.interruptAll_onward _ revoked.1.governor.pending)).trans
    (cancelWorker_onward (revoked.1.cancelled revoked.2).1 _)
  have hcancelled := cancelWorker_governor (revoked.1.cancelled revoked.2).1 (revoked.1.cancelled revoked.2).2
  have hidle : ((revoked.1.cancelled revoked.2).1.cancelWorker (revoked.1.cancelled revoked.2).2).1.governor.idle =
      r.governor.idle := by
    rw [hcancelled, ← hgovernor]
    rfl
  simp only [close, hrevoked]
  refine attends_bare .main (.settle ending) .park rfl hdesk (fun _ hkeeps => ?_) (fun _ => hidle) nofun
  refine hkeeps.onward hdesk (fun hbusy => hidle.trans hbusy) ?_
  change Governor.waiters (Run.governor (cancelWorker _ _).1) = _
  rw [hcancelled, ← hgovernor]
  rfl

theorem retire_attends {r₀ : Run} {d₀ : Desk} (hdesk : d₀.Onward d)
    (hkeeps : ∀ service, r₀.governor.Keeps service d₀ → r.governor.Keeps service d) (hidle : r.governor.idle = true) :
    (r.retire d).Attends .worker r₀ d₀ := by
  have hretired : d.Onward (if r.gathering then d.enqueue (.gathered r.id) else d) := by
    split
    · exact d.enqueue_onward _
    · exact .refl d
  refine attends_bare .worker .finished .finished rfl (hdesk.trans hretired) (fun service h => ?_) nofun fun _ => hidle
  exact (hkeeps service h).onward hretired (fun h => h) rfl

theorem leaveHandler_attends (r : Run) (d : Desk) (result : Except Raised Unit) :
    (r.leaveHandler d result).Attends .worker r d := by
  have hnext {r' : Run} {d' : Desk} (hdesk : d.Onward d')
      (hkeeps : ∀ service, r.governor.Keeps service d → r'.governor.Keeps service d') :
      (Step.go (r'.handlerFinished d').1 (r'.handlerFinished d').2 .receive []).Attends .worker r d :=
    attends_bare .worker .receive .go rfl (hdesk.trans (r'.handlerFinished_onward d'))
      (fun service h => handlerFinished_keeps (hkeeps service h)) nofun fun _ => r'.handlerFinished_idle d'
  have haborted (e : ScriptError) : d.Onward (r.aborted d e).2 := d.interruptAll_onward _
  have hkeeps (e : ScriptError) (service : ServiceId) (h : r.governor.Keeps service d) :
      (r.aborted d e).1.governor.Keeps service (r.aborted d e).2 := h.onward (haborted e) (fun h => h) rfl
  have hretire : ((r.handlerFinished d).1.retire (r.handlerFinished d).2).Attends .worker r d :=
    retire_attends (r.handlerFinished_onward d) (fun _ h => handlerFinished_keeps h) (r.handlerFinished_idle d)
  unfold leaveHandler
  split
  · exact hnext (.refl d) fun _ h => h
  · rename_i e
    split
    · exact hnext (.refl d) fun _ h => h
    · exact hnext (haborted e) (hkeeps e)
  · rename_i e
    exact hnext (haborted e) (hkeeps e)
  · exact hretire
  · exact hretire

theorem receive_attends (hidle : r.governor.idle = true) : (r.receive d).Attends .worker r d := by
  have hstarts {r' : Run} {d' : Desk} {control : Control} (hdesk : d.Onward d')
      (hkeeps : ∀ service, r.governor.Keeps service d → r'.governor.Keeps service d') (hinner : control.atRest = false) :
      (Step.go r' d' control [.handler]).Attends .worker r d := by
    have hhandler : ∀ frame ∈ [Frame.handler], frame.isOf .worker = true := by simp [Frame.isOf]
    have hresume := Control.not_resume_of_inner hinner
    exact ⟨hdesk, ⟨hhandler, Control.isOf_of_inner hinner .worker, nofun⟩, fun hgo => absurd rfl hgo, hkeeps,
      fun service releases h => absurd h (hresume service releases), nofun, fun _ _ => ⟨nofun, hresume⟩⟩
  simp only [receive]
  split
  · exact retire_attends (.refl d) (fun _ h => h) hidle
  · split
    · refine attends_bare .worker .receive .park rfl (d.modifyBox_onward r.id _) (fun _ h => ?_) (by simp) fun _ => hidle
      exact h.onward (d.modifyBox_onward r.id _) (fun h => h) rfl
    · rename_i mail rest hpop
      have hbox := d.modifyBox_onward r.id fun b => { b with mail := rest }
      have hkeeps (service : ServiceId) (h : r.governor.Keeps service d) :
          r.handlerStarted.governor.Keeps service (d.modifyBox r.id fun b => { b with mail := rest }) :=
        h.onward hbox (fun _ => rfl) rfl
      split
      · exact hstarts hbox hkeeps rfl
      · exact hstarts hbox hkeeps rfl

theorem hoist_governor (r : Run) (stmts : List Stmt) : (r.hoist stmts).governor = r.governor := by
  unfold hoist
  induction stmts generalizing r with
  | nil => rfl
  | cons s stmts ih =>
    rw [List.foldl_cons, ih]
    split <;> rfl

theorem begin_attends (side : Side) (hidle : side = .worker → r.governor.idle = true) :
    (r.begin d side).Attends side r d := by
  cases side with
  | worker => exact attends_bare .worker .receive .go rfl (.refl d) (fun _ h => h) (by simp) hidle
  | main =>
    have hidle : (r.begin d .main).run.governor.idle = r.governor.idle := congrArg Governor.idle (r.hoist_governor _)
    refine ⟨d.enqueue_onward _, ⟨by simp [begin, Step.go, Frame.isOf], rfl, nofun⟩, fun hgo => absurd rfl hgo,
      fun service h => ?_, nofun, fun _ => hidle, nofun⟩
    refine h.onward (d.enqueue_onward _) (fun hbusy => hidle.trans hbusy) ?_
    exact congrArg Governor.waiters (r.hoist_governor _)

theorem settle_attends (r : Run) (d : Desk) (ending : Ending) : (r.settle d ending).Attends .main r d := by
  simp only [settle]
  split
  · refine attends_bare .main .finished .finished rfl (d.publish_onward _) (fun _ h => ?_) (fun _ => ?_) (by simp)
    · exact h.onward (d.publish_onward _) (fun h => h) rfl
    · rfl
  · refine attends_bare .main .finished .finished rfl (.refl d) (fun _ h => h) (fun _ => ?_) (by simp)
    rfl

theorem ground_cases {frame : Frame} (h : ¬(!frame.isGround) = true) :
    frame = .handler ∨ frame = .program ∨ ∃ v, frame = .closing v := by
  cases frame <;> first | exact absurd rfl h | simp

theorem step_attends (hfits : t.Fits) (hnext : (step side r d t).thread.Fits) (hsided : t.Sided side)
    (hbusy : side = .worker → r.governor.Busy t) : (step side r d t).Attends side r d := by
  by_cases hcomputes : t.computes = true
  · exact attends_of_calm (step_calm hcomputes) hsided hnext
  obtain ⟨control, stack⟩ := t
  have hidle (hside : side = .worker) (hempty : stack = []) : r.governor.idle = true := by
    cases hg : r.governor.idle with
    | true => rfl
    | false => exact absurd hempty (hbusy hside hg).1
  -- A frame at the ground tells which side its thread is of.
  have hof {frame : Frame} (hmem : frame ∈ stack) : frame.isOf side = true := hsided.frames frame hmem
  match control, stack with
  | .checkpoint, stack => exact checkpoint_attends hsided.frames hfits
  | .request work, stack => exact request_attends hsided.frames hfits work (hsided.asks work rfl)
  | .resume id releases, stack => exact resume_attends hsided.frames hfits id releases false hsided.control
  | .ended signal, frame :: stack =>
    obtain ⟨⟨hneed, -, hbelow⟩, -⟩ := hfits
    rcases ground_cases hcomputes with rfl | rfl | ⟨v, rfl⟩
    · obtain rfl : side = .worker := by simpa [Frame.isOf] using hof List.mem_cons_self
      exact leaveHandler_attends r d (.ok ())
    · obtain rfl : side = .main := by simpa [Frame.isOf] using hof List.mem_cons_self
      obtain rfl : stack = [] := hbelow
      refine attends_go (.refl d) (by simp [Frame.isOf]) ?_ rfl nofun rfl rfl
      exact ⟨rfl, rfl, rfl⟩
    · cases hneed
  | .raised e, frame :: stack =>
    rcases ground_cases hcomputes with rfl | rfl | ⟨v, rfl⟩
    · obtain rfl : side = .worker := by simpa [Frame.isOf] using hof List.mem_cons_self
      exact leaveHandler_attends r d (.error e)
    · obtain rfl : side = .main := by simpa [Frame.isOf] using hof List.mem_cons_self
      exact close_attends r d _
    · obtain rfl : side = .main := by simpa [Frame.isOf] using hof List.mem_cons_self
      exact close_attends r d _
  | .replied result, frame :: stack =>
    obtain ⟨hneed, -, -⟩ := hfits
    rcases ground_cases hcomputes with rfl | rfl | ⟨v, rfl⟩
    · cases hneed
    · cases hneed
    · obtain rfl : side = .main := by simpa [Frame.isOf] using hof List.mem_cons_self
      simp only [step, reply]
      split
      · exact close_attends r d _
      · exact close_attends r d _
  | .start, stack => exact begin_attends side fun hside => hidle hside hfits
  | .receive, stack =>
    obtain rfl : side = .worker := by simpa [Control.isOf] using hsided.control
    exact receive_attends (hidle rfl hfits)
  | .settle ending, stack =>
    obtain rfl : side = .main := by simpa [Control.isOf] using hsided.control
    exact settle_attends r d ending
  | .finished, stack =>
    exact attends_bare side .finished .finished rfl (.refl d) (fun _ h => h) (fun _ => rfl) fun hside => hidle hside hfits
  | .statements _ _, stack | .perform _ _, stack | .evaluate _ _, stack | .recheck, stack | .clear, stack
  | .value _, _ :: _ | .passed, _ :: _ => exact absurd rfl hcomputes
  | .value _, [] | .passed, [] | .replied _, [] => exact hfits.elim
  | .ended _, [] => exact hfits.1.elim
  | .raised _, [] => exact hfits.choose_spec.elim

theorem interruptWorker_attends (hfits : t.Fits) (hsided : t.Sided .worker) (hbusy : r.governor.Busy t)
    (hrest : t.control.atRest = true) : (r.interruptWorker d t).Attends .worker r d := by
  have hidle (hempty : t.stack = []) : r.governor.idle = true := by
    cases hg : r.governor.idle with
    | true => rfl
    | false => exact absurd hempty (hbusy hg).1
  have hcontrol := hsided.control
  simp only [interruptWorker]
  split
  · rename_i id releases hresume
    rw [hresume] at hcontrol
    rw [Thread.Fits, hresume] at hfits
    have h := @resume_attends .worker { r with workerCancelled := false } d t.stack hsided.frames hfits id releases true
      hcontrol
    exact ⟨h.desk, h.sided, h.rests, h.keeps, h.opened, h.idle, h.busy⟩
  · rename_i hrecheck
    rw [Thread.Fits, hrecheck] at hfits
    refine attends_raise (.refl d) hsided.frames hfits ?_ ?_ .interrupted <;> rfl
  · rename_i hresume hrecheck
    refine retire_attends (.refl d) (fun _ h => h) (hidle ?_)
    rw [Thread.Fits] at hfits
    cases hc : t.control <;> rw [hc] at hfits hrest
    case resume id releases => exact absurd hc (hresume id releases)
    case recheck => exact absurd hc hrecheck
    case start | receive | settle | finished => exact hfits
    all_goals cases hrest

end Run

end DeskScript
