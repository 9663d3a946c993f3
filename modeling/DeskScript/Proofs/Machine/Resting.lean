import DeskScript.Proofs.Machine.Halting
import DeskScript.Proofs.Machine.Waking

set_option autoImplicit false

/-!
# Every slice comes to rest

A thread does not go on for ever without a pause. A body ends after finitely many steps, and the worker, which takes one
event after the other, yields after a number of statements; between two statements it can only run out of mail.
Main statement: `Step.rests_of_sound`.
-/

namespace DeskScript

inductive Step.Rests (side : Side) : Step → Prop
  | now {s : Step} (h : s.pace ≠ .go) : Rests side s
  | later {s : Step} (h : Rests side (Run.step side s.run s.desk s.thread)) : Rests side s

def Run.gap (r : Run) : Nat :=
  r.limits.yieldInterval.natAbs - r.governor.begun % r.limits.yieldInterval.natAbs

namespace Run

variable {r r' : Run} {d : Desk} {side : Side} {stack : List Frame}

theorem gap_eq (hlimits : r'.limits = r.limits) (hbegun : r'.governor.begun = r.governor.begun) : r'.gap = r.gap := by
  rw [gap, gap, hlimits, hbegun]

theorem gap_lt {n : Nat} {interval : Int} (hinterval : interval ≠ 0) (h : ((n + 1 : Nat) : Int) % interval ≠ 0) :
    interval.natAbs - (n + 1) % interval.natAbs < interval.natAbs - n % interval.natAbs := by
  have hpos : 0 < interval.natAbs := Nat.pos_of_ne_zero (Int.natAbs_ne_zero.2 hinterval)
  have hmod : (n + 1) % interval.natAbs ≠ 0 := by
    intro hzero
    apply h
    rw [← Int.dvd_iff_emod_eq_zero, ← Int.natAbs_dvd]
    exact Int.natCast_dvd_natCast.2 (Nat.dvd_of_mod_eq_zero hzero)
  generalize interval.natAbs = m at *
  have hn := Nat.mod_lt n hpos
  have hsucc : (n + 1) % m = n % m + 1 := by
    rw [← Nat.mod_add_mod]
    refine Nat.mod_eq_of_lt (Nat.lt_of_le_of_ne hn fun hlast => hmod ?_)
    rw [← Nat.mod_add_mod, hlast, Nat.mod_self]
  omega

theorem checkpoint_cases (r : Run) (d : Desk) (stack : List Frame) :
    (r.checkpoint d stack).pace ≠ .go ∨ (∃ r' e, r.checkpoint d stack = .raise r' d e stack ∧ r'.id = r.id ∧ r'.gap ≤ r.gap) ∨
      ∃ r', r.checkpoint d stack = .go r' d .clear stack ∧ r'.gap < r.gap := by
  unfold checkpoint
  split
  · exact .inr (.inl ⟨r, _, rfl, rfl, Nat.le_refl _⟩)
  · dsimp only
    split
    · rename_i f hyields
      refine .inr (.inl ⟨_, _, rfl, rfl, ?_⟩)
      unfold yields at hyields
      split at hyields
      · rename_i hzero
        simp only [gap]
        rw [show r.limits.yieldInterval = 0 from hzero]
        exact Nat.le_of_eq (by simp)
      · cases hyields
    · exact .inl nofun
    · rename_i hyields
      refine .inr (.inr ⟨_, rfl, ?_⟩)
      unfold yields at hyields
      split at hyields
      · cases hyields
      · rename_i hinterval
        simp only [Except.ok.injEq, decide_eq_false_iff_not] at hyields
        exact gap_lt hinterval hyields

theorem handled_mail (d : Desk) (id : RunId) : ((d.handled id).box id).mail = (d.box id).mail := by
  have hmodify (f : Mailbox → Mailbox) (hf : ∀ b, (f b).mail = b.mail) :
      ((d.modifyBox id f).box id).mail = (d.box id).mail := by
    rcases d.box_modifyBox id id f with hbox | hbox
    · rw [hbox]
    · rw [hbox, hf]
  simp only [Desk.handled]
  split
  · rw [Desk.box, (Desk.wakeAll_still _ _).boxes]
    exact hmodify _ fun _ => rfl
  · exact hmodify _ fun _ => rfl

theorem handlerFinished_mail (r : Run) (d : Desk) : (((r.handlerFinished d).2).box r.id).mail = (d.box r.id).mail := by
  have hstill := becomeIdle_still { r with governor := { r.governor with handling := false } } d
  have hid := (becomeIdle_quiet { r with governor := { r.governor with handling := false } } d).id
  simp only [handlerFinished]
  rw [hid, handled_mail, Desk.box, hstill.boxes]
  rfl

theorem becomeIdle_begun (r : Run) (d : Desk) : (r.becomeIdle d).1.governor.begun = r.governor.begun := by
  unfold becomeIdle
  split <;> rfl

theorem retire_pace (r : Run) (d : Desk) : (r.retire d).pace ≠ .go := nofun

theorem close_pace (r : Run) (d : Desk) (ending : Ending) : (r.close d ending).pace ≠ .go := nofun

/-- A handler that has ended: the worker is over, or it takes the next event. -/
theorem leaveHandler_cases (r : Run) (d : Desk) (result : Except Raised Unit) :
    (r.leaveHandler d result).pace ≠ .go ∨ ∃ r' d', r.leaveHandler d result = .go r' d' .receive [] ∧ r'.id = r.id ∧
      r'.governor.begun = r.governor.begun ∧ (d'.box r.id).mail = (d.box r.id).mail := by
  have hnext {r' : Run} {d' : Desk} (hid : r'.id = r.id) (hbegun : r'.governor.begun = r.governor.begun)
      (hboxes : d'.boxes = d.boxes) :
      ∃ r'' d'', Step.go (r'.handlerFinished d').1 (r'.handlerFinished d').2 .receive [] = .go r'' d'' .receive [] ∧
        r''.id = r.id ∧ r''.governor.begun = r.governor.begun ∧ (d''.box r.id).mail = (d.box r.id).mail := by
    refine ⟨_, _, rfl, ?_, ?_, ?_⟩
    · exact (r'.handlerFinished_quiet d').id.trans hid
    · exact (becomeIdle_begun { r' with governor := { r'.governor with handling := false } } d').trans hbegun
    · rw [← hid, handlerFinished_mail, Desk.box, hboxes]
      rfl
  have haborted : (d.interruptAll r.governor.pending).boxes = d.boxes := (d.interruptAll_still _).boxes
  unfold leaveHandler
  split
  · exact .inr (hnext rfl rfl rfl)
  · split
    · exact .inr (hnext rfl rfl rfl)
    · exact .inr (hnext rfl rfl haborted)
  · exact .inr (hnext rfl rfl haborted)
  · exact .inl (retire_pace _ _)
  · exact .inl (retire_pace _ _)

/-- The worker starts a handler with one event less in its box, or it comes to rest. -/
theorem receive_cases (r : Run) (d : Desk) :
    (r.receive d).pace ≠ .go ∨ ∃ r' d' control, r.receive d = .go r' d' control [.handler] ∧ r'.id = r.id ∧
      r'.governor.begun = r.governor.begun ∧ (d'.box r.id).mail.toList.length + 1 = (d.box r.id).mail.toList.length ∧
      ((∃ e, control = .raised e) ∨ ∃ stmts scope, control = .statements stmts scope) := by
  simp only [receive]
  split
  · exact .inl (retire_pace r d)
  · split
    · exact .inl (by simp)
    · rename_i mail rest hpop
      have hlength : ((d.modifyBox r.id fun b => { b with mail := rest }).box r.id).mail.toList.length + 1 =
          (d.box r.id).mail.toList.length := by
        have hmail := Queue.toList_of_pop? _ _ _ hpop
        have hbox : (d.modifyBox r.id fun b => { b with mail := rest }).box r.id = { d.box r.id with mail := rest } := by
          have hsize : r.id < d.boxes.size := by
            apply Nat.lt_of_not_le
            intro hout
            rw [Desk.box, Array.getD_eq_getD_getElem?, Array.getElem?_eq_none hout] at hpop
            cases hpop
          simp [Desk.box, Desk.modifyBox, hsize, Array.getElem_modify_self]
        rw [hbox, hmail, List.length_cons]
      split
      · exact .inr ⟨_, _, _, rfl, rfl, rfl, hlength, .inl ⟨_, rfl⟩⟩
      · exact .inr ⟨_, _, _, rfl, rfl, rfl, hlength, .inr ⟨_, _, rfl⟩⟩

theorem request_cases (r : Run) (d : Desk) (side : Side) (work : Work) (stack : List Frame) :
    (r.request d side work stack).pace ≠ .go ∨ ∃ e, r.request d side work stack = .raise r d e stack := by
  unfold request
  split
  · exact .inr ⟨_, rfl⟩
  · exact .inl nofun

/-- Only a checkpoint counts, and it brings the thread closer to its yield. -/
theorem step_gap {t : Thread} (hlimits : (step side r d t).run.limits = r.limits) (hgo : (step side r d t).pace = .go) :
    (step side r d t).run.gap ≤ r.gap := by
  have hbegun (h : (step side r d t).run.governor.begun = r.governor.begun) : (step side r d t).run.gap ≤ r.gap :=
    Nat.le_of_eq (gap_eq hlimits h)
  by_cases hcomputes : t.computes = true
  · exact hbegun (congrArg Governor.begun (@step_calm side r d _ hcomputes).alike.governor)
  have hleave (result : Except Raised Unit) (hleave : (r.leaveHandler d result).pace = .go) :
      (r.leaveHandler d result).run.governor.begun = r.governor.begun := by
    rcases r.leaveHandler_cases d result with hpace | ⟨r', d', heq, -, hbegun', -⟩
    · exact absurd hleave hpace
    · rw [heq]
      exact hbegun'
  obtain ⟨control, stack⟩ := t
  match control, stack with
  | .checkpoint, stack =>
    rcases r.checkpoint_cases d stack with hpace | ⟨r', e, heq, -, hle⟩ | ⟨r', heq, hlt⟩
    · exact absurd hgo hpace
    · simp only [step, heq]
      exact hle
    · simp only [step, heq]
      exact Nat.le_of_lt hlt
  | .request work, stack =>
    rcases r.request_cases d side work stack with hpace | ⟨e, heq⟩
    · exact absurd hgo hpace
    · refine hbegun ?_
      simp only [step, heq]
      rfl
  | .resume id releases, stack =>
    refine hbegun ?_
    simp only [step, resume]
    split
    · rfl
    · split <;> rfl
  | .ended signal, frame :: stack =>
    rcases ground_cases hcomputes with rfl | rfl | ⟨v, rfl⟩
    · exact hbegun (hleave _ hgo)
    · exact hbegun rfl
    · exact hbegun rfl
  | .raised e, frame :: stack =>
    rcases ground_cases hcomputes with rfl | rfl | ⟨v, rfl⟩
    · exact hbegun (hleave _ hgo)
    · cases hgo
    · cases hgo
  | .replied result, frame :: stack =>
    rcases ground_cases hcomputes with rfl | rfl | ⟨v, rfl⟩
    · exact hbegun rfl
    · exact hbegun rfl
    · simp only [step, reply] at hgo
      split at hgo <;> cases hgo
  | .start, stack =>
    cases side with
    | main => exact hbegun (congrArg Governor.begun (r.hoist_governor _))
    | worker => exact hbegun rfl
  | .receive, stack =>
    rcases r.receive_cases d with hpace | ⟨r', d', control, heq, -, hbegun', -⟩
    · exact absurd hgo hpace
    · refine hbegun ?_
      simp only [step, heq]
      exact hbegun'
  | .settle ending, stack => cases hgo
  | .finished, stack => cases hgo
  | .value _, [] | .passed, [] | .replied _, [] | .ended _, [] | .raised _, [] => cases hgo
  | .statements _ _, stack | .perform _ _, stack | .evaluate _ _, stack | .recheck, stack | .clear, stack
  | .value _, _ :: _ | .passed, _ :: _ => exact absurd rfl hcomputes

end Run

namespace Step

/-- A step within a slice, with so many leaves left at most. -/
structure Under (gap other : Nat) (s : Step) : Prop where
  sound : s.Sound s.run other
  gap : s.run.gap ≤ gap

variable {gap other : Nat} {side : Side} {s : Step} {limits : Limits}

theorem Under.rests (h : s.Under gap other) (hnext : ∀ s', s' = Run.step side s.run s.desk s.thread → s'.Under gap other →
    s'.run.limits = s.run.limits → s'.Rests side) : s.Rests side := by
  have hsound : (Run.step side s.run s.desk s.thread).Sound s.run other :=
    Run.step_sound side ⟨h.sound.run, h.sound.desk, h.sound.counted⟩ h.sound.fits
  have hlimits := hsound.kept.limits
  refine .later ?_
  by_cases hgo : (Run.step side s.run s.desk s.thread).pace = .go
  · refine hnext _ rfl ⟨⟨hsound.run, hsound.desk, (Run.Quiet.refl _).kept, hsound.fits, hsound.counted, hsound.rests⟩, ?_⟩
      hlimits
    exact Nat.le_trans (Run.step_gap hlimits hgo) h.gap
  · exact .now hgo

theorem closing_rests (h : s.Under gap other) {v : Value} (hstack : s.thread.stack = [.closing v]) : s.Rests side := by
  have hraised (r : Run) (d : Desk) (e : Raised) : (raise r d e [.closing v]).Rests side :=
    .later (.now (r.close_pace d _))
  have hreplied (r : Run) (d : Desk) (result : ServiceResult) :
      (Run.step side r d ⟨.replied result, [.closing v]⟩).pace ≠ .go := by
    simp only [Run.step, Run.reply]
    split
    · exact r.close_pace d _
    · exact r.close_pace d _
  obtain ⟨r, d, ⟨control, stack⟩, pace⟩ := s
  obtain rfl : stack = [.closing v] := hstack
  have hfits := h.sound.fits
  cases control with
  | request work =>
    refine .later ?_
    rcases r.request_cases d side work [.closing v] with hpace | ⟨e, heq⟩
    · exact .now hpace
    · simp only [Run.step, heq]
      exact hraised r d e
  | resume id releases =>
    refine .later ?_
    simp only [Run.step, Run.resume]
    split
    · exact hraised _ _ _
    · split
      · exact hraised _ _ _
      · exact .later (.now (hreplied _ _ _))
      · exact hraised _ _ _
  | replied result => exact .later (.now (hreplied r d result))
  | raised e => exact .later (.now (r.close_pace d _))
  | statements _ _ | perform _ _ | ended _ => cases hfits.1.1
  | evaluate _ _ | value _ | checkpoint | recheck | clear | passed => cases hfits.1
  | start | receive | settle _ | finished => cases hfits

theorem over_rests (hreceive : ∀ s' : Step, s'.Under gap other → s'.thread = ⟨.receive, []⟩ → s'.Rests side)
    (h : s.Under gap other) (hover : s.thread.BodyOver) : s.Rests side := by
  obtain ⟨r, d, ⟨control, stack⟩, pace⟩ := s
  obtain ⟨hstack, hcontrol⟩ := hover
  have hleave (result : Except Raised Unit) (s' : Step) (heq : s' = r.leaveHandler d result) (hs' : s'.Under gap other) :
      s'.Rests side := by
    rcases r.leaveHandler_cases d result with hpace | ⟨r', d', hgo, -⟩
    · rw [heq]
      exact .now hpace
    · refine hreceive s' hs' ?_
      rw [heq, hgo]
      rfl
  rcases hstack with hstack | hstack <;> rcases hcontrol with ⟨signal, hcontrol⟩ | ⟨e, hcontrol⟩
  all_goals
    obtain rfl : stack = _ := hstack
    obtain rfl : control = _ := hcontrol
  · exact h.rests fun s' heq hs' _ => closing_rests hs' (congrArg (fun s => s.thread.stack) heq)
  · exact .later (.now nofun)
  · exact h.rests fun s' heq hs' _ => hleave (.ok ()) s' heq hs'
  · exact h.rests fun s' heq hs' _ => hleave (.error e) s' heq hs'

/-- A thread at a checkpoint goes on, or comes to rest there. -/
theorem held_rests {stack : List Frame}
    (hpassed : ∀ s' : Step, s'.Under gap other → s'.run.limits = limits → s'.thread = ⟨.passed, stack⟩ → s'.Rests side)
    (hraised : ∀ (s' : Step) (e : Raised), s'.Under gap other → s'.run.limits = limits →
      s'.thread = ⟨.raised e, .clearing :: stack⟩ → s'.Rests side)
    (h : s.Under gap other) (hlimits : s.run.limits = limits) (hheld : s.thread.HeldAt stack) : s.Rests side := by
  have hrequest (s : Step) (h : s.Under gap other) (hlimits : s.run.limits = limits)
      (hthread : s.thread = ⟨.request .idle, .clearing :: stack⟩) : s.Rests side := by
    refine h.rests fun s' heq hs' hsame => ?_
    rw [hthread] at heq
    rcases s.run.request_cases s.desk side .idle (.clearing :: stack) with hpace | ⟨e, hraise⟩
    · rw [heq]
      exact .now hpace
    · refine hraised s' e hs' (hsame.trans hlimits) ?_
      rw [heq]
      exact congrArg Step.thread hraise
  have hclear (s : Step) (h : s.Under gap other) (hlimits : s.run.limits = limits)
      (hthread : s.thread = ⟨.clear, stack⟩) : s.Rests side := by
    refine h.rests fun s' heq hs' hsame => ?_
    rw [hthread] at heq
    by_cases hfree : s.run.isClear side = true
    · refine hpassed s' hs' (hsame.trans hlimits) ?_
      rw [heq]
      exact congrArg Step.thread (if_pos hfree)
    · refine hrequest s' hs' (hsame.trans hlimits) ?_
      rw [heq]
      exact congrArg Step.thread (if_neg hfree)
  have hreplied (s : Step) (h : s.Under gap other) (hlimits : s.run.limits = limits) (result : ServiceResult)
      (hthread : s.thread = ⟨.replied result, .clearing :: stack⟩) : s.Rests side := by
    refine h.rests fun s' heq hs' hsame => hclear s' hs' (hsame.trans hlimits) ?_
    rw [heq, hthread]
    rfl
  generalize hthread : s.thread = t at hheld
  cases hheld with
  | clear => exact hclear s h hlimits hthread
  | request => exact hrequest s h hlimits hthread
  | replied result => exact hreplied s h hlimits result hthread
  | resume id releases =>
    refine h.rests fun s' heq hs' hsame => ?_
    rw [hthread] at heq
    simp only [Run.step, Run.resume] at heq
    split at heq
    · exact hraised s' _ hs' (hsame.trans hlimits) (by rw [heq]; rfl)
    · split at heq
      · exact hraised s' _ hs' (hsame.trans hlimits) (by rw [heq]; rfl)
      · exact hreplied s' hs' (hsame.trans hlimits) _ (by rw [heq]; rfl)
      · exact hraised s' _ hs' (hsame.trans hlimits) (by rw [heq]; rfl)

theorem rests_of_halts (hreceive : ∀ s' : Step, s'.Under gap other → s'.thread = ⟨.receive, []⟩ → s'.Rests side)
    {t : Thread} (ht : Halts limits side t) :
    ∀ s : Step, s.Under gap other → s.run.limits = limits → s.thread = t → s.Rests side := by
  induction ht with
  | finished hover =>
    intro s h hlimits hthread
    exact over_rests hreceive h (hthread ▸ hover)
  | move hstep hrest ih =>
    intro s h hlimits hthread
    refine h.rests fun s' heq hs' hsame => ?_
    have hcounted := h.sound.counted
    rw [hthread] at heq hcounted
    refine ih s.run s.desk ⟨hlimits, ?_⟩ s' hs' (hsame.trans hlimits) (congrArg Step.thread heq)
    exact Nat.le_trans (Nat.le_add_right _ other) hcounted
  | held hheld hside hpassed hraised ihpassed ihraised =>
    intro s h hlimits hthread
    exact held_rests ihpassed (fun s' e hs' hlimits' hthread' => ihraised e s' hs' hlimits' hthread') h hlimits
      (hthread ▸ hheld)

def mails (s : Step) : Nat := (s.desk.box s.run.id).mail.toList.length

/-- A handler ends, and the worker goes on with the events that are left. -/
theorem leave_rests {n : Nat}
    (hreceive : ∀ s' : Step, s'.Under gap other → s'.thread = ⟨.receive, []⟩ → s'.mails = n → s'.Rests side)
    (h : s.Under gap other) (hthread : s.thread = ⟨.ended none, [.handler]⟩ ∨ ∃ e, s.thread = ⟨.raised e, [.handler]⟩)
    (hmails : s.mails = n) : s.Rests side := by
  refine h.rests fun s' heq hs' _ => ?_
  have hleft : ∃ result, s' = s.run.leaveHandler s.desk result := by
    rcases hthread with hthread | ⟨e, hthread⟩
    · rw [hthread] at heq
      exact ⟨.ok (), heq⟩
    · rw [hthread] at heq
      exact ⟨.error e, heq⟩
  obtain ⟨result, hleft⟩ := hleft
  rcases s.run.leaveHandler_cases s.desk result with hpace | ⟨r', d', hgo, hid, -, hbox⟩
  · rw [hleft]
    exact .now hpace
  · rw [hgo] at hleft
    subst hleft
    refine hreceive _ hs' rfl ?_
    change (d'.box r'.id).mail.toList.length = n
    rw [hid, hbox]
    exact hmails

theorem located_rests {n : Nat} {span : Span} {rest : List Stmt} {scope : ScopeId} {e : Raised}
    (hreceive : ∀ s' : Step, s'.Under gap other → s'.thread = ⟨.receive, []⟩ → s'.mails = n → s'.Rests side)
    (h : s.Under gap other) (hthread : s.thread = ⟨.raised e, [.located span, .following rest scope, .handler]⟩)
    (hmails : s.mails = n) : s.Rests side := by
  obtain ⟨r, d, thread, pace⟩ := s
  obtain rfl : thread = _ := hthread
  refine h.rests fun s₁ heq₁ h₁ _ => ?_
  have hlocated : ∃ e', s₁ = raise r d e' [.following rest scope, .handler] := by
    rw [heq₁]
    cases e <;> exact ⟨_, rfl⟩
  obtain ⟨e', rfl⟩ := hlocated
  refine h₁.rests fun s₂ heq₂ h₂ _ => ?_
  subst heq₂
  exact leave_rests hreceive h₂ (.inr ⟨e', rfl⟩) hmails

theorem entering_rests {n : Nat} {stmt : Stmt} {rest : List Stmt} {scope : ScopeId}
    (hless : ∀ s' : Step, s'.Sound s'.run other → s'.run.gap < gap → s'.Rests side)
    (hreceive : ∀ s' : Step, s'.Under gap other → s'.thread = ⟨.receive, []⟩ → s'.mails = n → s'.Rests side)
    (h : s.Under gap other)
    (hthread : s.thread = ⟨.checkpoint, [.entering stmt scope, .located stmt.span, .following rest scope, .handler]⟩)
    (hmails : s.mails = n) : s.Rests side := by
  obtain ⟨r, d, thread, pace⟩ := s
  obtain rfl : thread = _ := hthread
  refine h.rests fun s₁ heq₁ h₁ _ => ?_
  change s₁ = r.checkpoint d [.entering stmt scope, .located stmt.span, .following rest scope, .handler] at heq₁
  rcases r.checkpoint_cases d [.entering stmt scope, .located stmt.span, .following rest scope, .handler] with
    hpace | ⟨r', e, hraise, hid, -⟩ | ⟨r', hclear, hgap⟩
  · rw [heq₁]
    exact .now hpace
  · rw [hraise] at heq₁
    subst heq₁
    refine h₁.rests fun s₂ heq₂ h₂ _ => ?_
    subst heq₂
    refine located_rests hreceive h₂ rfl ?_
    change (d.box r'.id).mail.toList.length = n
    rw [hid]
    exact hmails
  · rw [hclear] at heq₁
    subst heq₁
    exact hless _ h₁.sound (Nat.lt_of_lt_of_le hgap h.gap)

/-- The statements of a handler: there are none, or the first asks for leave, or the stack has no room for it. -/
theorem handler_rests {n : Nat} {stmts : List Stmt} {scope : ScopeId}
    (hless : ∀ s' : Step, s'.Sound s'.run other → s'.run.gap < gap → s'.Rests side)
    (hreceive : ∀ s' : Step, s'.Under gap other → s'.thread = ⟨.receive, []⟩ → s'.mails = n → s'.Rests side)
    (h : s.Under gap other) (hthread : s.thread = ⟨.statements stmts scope, [.handler]⟩) (hmails : s.mails = n) :
    s.Rests side := by
  obtain ⟨r, d, thread, pace⟩ := s
  obtain rfl : thread = _ := hthread
  refine h.rests fun s₁ heq₁ h₁ _ => ?_
  cases stmts with
  | nil =>
    subst heq₁
    exact leave_rests hreceive h₁ (.inl rfl) hmails
  | cons stmt rest =>
    change s₁ = r.descend d .checkpoint (.entering stmt scope)
      [.located stmt.span, .following rest scope, .handler] at heq₁
    unfold Run.descend at heq₁
    split at heq₁
    · subst heq₁
      exact entering_rests hless hreceive h₁ rfl hmails
    · subst heq₁
      exact located_rests hreceive h₁ rfl hmails

/-- The worker takes one event after the other. Between two leaves it does not put any into its box. -/
theorem receive_rests (hless : ∀ s' : Step, s'.Sound s'.run other → s'.run.gap < gap → s'.Rests side) (n : Nat) :
    ∀ s : Step, s.Under gap other → s.thread = ⟨.receive, []⟩ → s.mails = n → s.Rests side := by
  induction n with
  | zero =>
    intro s h hthread hmails
    refine .later ?_
    rw [hthread]
    rcases s.run.receive_cases s.desk with hpace | ⟨_, _, _, -, -, -, hlength, -⟩
    · exact .now hpace
    · unfold mails at hmails
      omega
  | succ n ih =>
    intro s h hthread hmails
    refine h.rests fun s' heq hs' _ => ?_
    rw [hthread] at heq
    change s' = s.run.receive s.desk at heq
    rcases s.run.receive_cases s.desk with hpace | ⟨r', d', control, hgo, hid, -, hlength, hcontrol⟩
    · rw [heq]
      exact .now hpace
    · rw [hgo] at heq
      subst heq
      have hmails' : (go r' d' control [.handler]).mails = n := by
        change (d'.box r'.id).mail.toList.length = n
        unfold mails at hmails
        rw [hid]
        omega
      rcases hcontrol with ⟨e, rfl⟩ | ⟨stmts, scope, rfl⟩
      · exact leave_rests ih hs' (.inr ⟨e, rfl⟩) hmails'
      · exact handler_rests hless ih hs' rfl hmails'

theorem inBody_or_closing {need : Need} {stack : List Frame} (h : Stacked need stack) :
    InBody stack ∨ ∃ v, stack = [.closing v] ∧ need = .reply := by
  induction stack generalizing need with
  | nil => exact h.elim
  | cons frame rest ih =>
    obtain ⟨hneed, -, hbelow⟩ := h
    cases hgives : frame.gives with
    | none =>
      rw [hgives] at hbelow
      obtain rfl : rest = [] := hbelow
      cases frame <;> first | exact .inl (.inl rfl) | exact .inl (.inr rfl) | exact .inr ⟨_, rfl, hneed.symm⟩ | cases hgives
    | some given =>
      rw [hgives] at hbelow
      have hne : rest ≠ [] := by
        rintro rfl
        exact hbelow.elim
      rcases ih hbelow with hbody | ⟨v, -, hreply⟩
      · exact .inl ((inBody_cons hne).2 hbody)
      · subst hreply
        cases frame <;> cases hgives

theorem fits_cases {t : Thread} (h : t.Fits) :
    InBody t.stack ∨ (∃ v, t.stack = [.closing v]) ∨ t.stack = [] ∧ t.control.atRest = true := by
  have hstacked {need : Need} (hs : Stacked need t.stack) :
      InBody t.stack ∨ (∃ v, t.stack = [.closing v]) ∨ t.stack = [] ∧ t.control.atRest = true := by
    rcases inBody_or_closing hs with hbody | ⟨v, hclosing, -⟩
    · exact .inl hbody
    · exact .inr (.inl ⟨v, hclosing⟩)
  unfold Thread.Fits at h
  cases hcontrol : t.control <;> rw [hcontrol] at h hstacked
  case statements | perform | ended => exact hstacked h.1
  case raised => exact hstacked h.choose_spec
  case start | receive | settle | finished => exact .inr (.inr ⟨h, rfl⟩)
  all_goals exact hstacked h

theorem Under.all_rest (h : s.Under gap other) : s.Rests side := by
  -- Within a block the thread comes to its next leave, and each leave makes the gap smaller.
  induction gap using Nat.strongRecOn generalizing s with
  | ind gap ih =>
    have hless (s' : Step) (hs' : s'.Sound s'.run other) (hgap : s'.run.gap < gap) : s'.Rests side :=
      ih s'.run.gap hgap ⟨hs', Nat.le_refl _⟩
    have hreceive (s' : Step) (hs' : s'.Under gap other) (hthread : s'.thread = ⟨.receive, []⟩) : s'.Rests side :=
      receive_rests hless s'.mails s' hs' hthread rfl
    have hbody (s' : Step) (hs' : s'.Under gap other) (hbody : InBody s'.thread.stack) : s'.Rests side :=
      rests_of_halts hreceive (halts_of_fits s'.run.limits side hs'.sound.fits hbody) s' hs' rfl rfl
    rcases fits_cases h.sound.fits with hin | ⟨v, hclosing⟩ | ⟨hempty, hrest⟩
    · exact hbody s h hin
    · exact closing_rests h hclosing
    · obtain ⟨r, d, ⟨control, stack⟩, pace⟩ := s
      obtain rfl : stack = [] := hempty
      cases control with
      | start =>
        refine h.rests fun s' heq hs' _ => ?_
        cases side with
        | main => exact hbody s' hs' (.inl (congrArg (fun s => s.thread.stack.getLast?) heq))
        | worker => exact hreceive s' hs' (congrArg Step.thread heq)
      | receive => exact hreceive _ h rfl
      | settle _ | finished => exact .later (.now nofun)
      | recheck | resume _ _ => exact h.sound.fits.elim
      | _ => cases hrest

theorem rests_of_sound (side : Side) (h : s.Sound s.run other) : s.Rests side := Under.all_rest ⟨h, Nat.le_refl _⟩

end Step

end DeskScript
