import DeskScript.Proofs.Machine.Shape
import DeskScript.Machine.Service
import DeskScript.Builtin.Basic

set_option autoImplicit false

/-!
# What the desk hands on

The bodies that wait in mailboxes or on the bus are confined, and stay so: most operations on a desk leave both alone.
-/

namespace DeskScript

namespace Listener

def confined : Listener → Bool
  | handler _ body _ => Stmt.allConfined false body.statements
  | recorder | printer _ => true

end Listener

namespace Desk

structure Sound (d : Desk) : Prop where
  mail : ∀ run, ∀ m ∈ (d.box run).mail.toList, m.body.Confined false
  bus : ∀ s ∈ d.host.bus.subscriptions, s.listener.confined = true

/-- Two desks with the same mail and the same subscriptions. -/
structure Still (d d' : Desk) : Prop where
  boxes : d'.boxes = d.boxes
  bus : d'.host.bus.subscriptions = d.host.bus.subscriptions

variable {d d' d'' : Desk}

theorem Still.refl (d : Desk) : d.Still d := ⟨rfl, rfl⟩

theorem Still.trans (h : d.Still d') (h' : d'.Still d'') : d.Still d'' :=
  ⟨h'.boxes.trans h.boxes, h'.bus.trans h.bus⟩

theorem Sound.still (h : d.Sound) (hd : d.Still d') : d'.Sound := by
  refine ⟨fun run => ?_, ?_⟩
  · rw [show d'.box run = d.box run by rw [box, box, hd.boxes]]
    exact h.mail run
  · rw [hd.bus]
    exact h.bus

theorem enqueue_still (d : Desk) (r : Ready) : d.Still (d.enqueue r) := ⟨rfl, rfl⟩

theorem setStage_still (d : Desk) (id : ServiceId) (stage : Stage) : d.Still (d.setStage id stage) := ⟨rfl, rfl⟩

theorem open_still (d : Desk) (run : RunId) (side : Side) (work : Work) : d.Still (d.open_ run side work).2 := ⟨rfl, rfl⟩

theorem complete_still (d : Desk) (id : ServiceId) (r : ServiceResult) : d.Still (d.complete id r) := ⟨rfl, rfl⟩

theorem wake_still (d : Desk) (id : ServiceId) (r : Except Fault Plain) : d.Still (d.wake id r) := by
  unfold wake
  split
  · exact ⟨rfl, rfl⟩
  · exact .refl d

theorem interrupt_still (d : Desk) (id : ServiceId) : d.Still (d.interrupt id) := by
  unfold interrupt
  split
  · exact .refl d
  · exact ⟨rfl, rfl⟩
  · exact ⟨rfl, rfl⟩

theorem foldl_still {α : Type} {f : Desk → α → Desk} (hf : ∀ (d : Desk) (a : α), d.Still (f d a)) (as : List α) (d : Desk) :
    d.Still (as.foldl f d) := by
  induction as generalizing d with
  | nil => exact .refl d
  | cons a as ih => exact (hf d a).trans (ih (f d a))

theorem wakeAll_still (d : Desk) (ids : List ServiceId) : d.Still (d.wakeAll ids) :=
  foldl_still (fun d id => wake_still d id _) ids d

theorem interruptAll_still (d : Desk) (ids : List ServiceId) : d.Still (d.interruptAll ids) :=
  foldl_still interrupt_still ids d

theorem answer_still (d : Desk) (p : Plain) : d.Still (d.answer p) := by
  unfold answer
  split
  · exact ⟨rfl, rfl⟩
  · refine Still.trans ?_ (wake_still _ _ _)
    exact ⟨rfl, rfl⟩

theorem waitForWorld_still (h : d.waitForWorld? = some d') : d.Still d' := by
  unfold waitForWorld? at h
  split at h
  · cases h
    refine Still.trans ?_ (wake_still _ _ _)
    exact ⟨rfl, rfl⟩
  · split at h
    · cases h
    · cases h
      refine Still.trans ?_ (wake_still _ _ _)
      exact ⟨rfl, rfl⟩

theorem beginDialog_still (d : Desk) (id : ServiceId) (kind : DialogKind) (message default : String) :
    d.Still (d.beginDialog id kind message default) := by
  unfold beginDialog
  split
  · exact ⟨rfl, rfl⟩
  · exact complete_still d id _
  · split
    · exact ⟨rfl, rfl⟩
    · exact ⟨rfl, rfl⟩
  · exact ⟨rfl, rfl⟩

theorem beginSleep_still (d : Desk) (id : ServiceId) (ms : Time) : d.Still (d.beginSleep id ms) := by
  simp only [beginSleep]
  split
  · exact ⟨rfl, rfl⟩
  · split
    · exact ⟨rfl, rfl⟩
    · exact ⟨rfl, rfl⟩

theorem box_modifyBox (d : Desk) (run other : RunId) (f : Mailbox → Mailbox) :
    (d.modifyBox run f).box other = d.box other ∨ (d.modifyBox run f).box other = f (d.box other) := by
  unfold box modifyBox
  simp only [Array.getD_eq_getD_getElem?, Array.getElem?_modify]
  cases h : d.boxes[other]? with
  | none => split <;> simp
  | some b => split <;> simp

theorem Sound.modifyBox (h : d.Sound) (run : RunId) {f : Mailbox → Mailbox}
    (hf : ∀ b, (∀ m ∈ b.mail.toList, m.body.Confined false) → ∀ m ∈ (f b).mail.toList, m.body.Confined false) :
    (d.modifyBox run f).Sound := by
  refine ⟨fun other => ?_, h.bus⟩
  rcases d.box_modifyBox run other f with hbox | hbox
  · rw [hbox]
    exact h.mail other
  · rw [hbox]
    exact hf _ (h.mail other)

theorem Sound.post (h : d.Sound) (run : RunId) {mail : Mail} (hm : mail.body.Confined false) : (d.post run mail).Sound := by
  have hpushed : (d.modifyBox run fun b =>
      { b with mail := b.mail.push mail, unfinished := b.unfinished + 1, waiting := false }).Sound := by
    refine h.modifyBox run fun b hb m hmem => ?_
    rw [Queue.toList_push, List.mem_append, List.mem_singleton] at hmem
    rcases hmem with hmem | rfl
    · exact hb m hmem
    · exact hm
  simp only [Desk.post]
  split
  · exact h
  · split
    · exact hpushed.still (enqueue_still _ _)
    · exact hpushed

theorem Sound.deliver (h : d.Sound) (event : Event) {listener : Listener} (hl : listener.confined = true) :
    (Desk.deliver event d listener).Sound := by
  cases listener with
  | handler run body scope => exact h.post run hl
  | recorder => exact h.still ⟨rfl, rfl⟩
  | printer lead =>
    simp only [Desk.deliver]
    split
    · exact h.still ⟨rfl, rfl⟩
    · exact h

theorem Sound.publish (h : d.Sound) (event : Event) : (d.publish event).Sound := by
  have hfold (ls : List Listener) (hls : ∀ l ∈ ls, l.confined = true) (d : Desk) (h : d.Sound) :
      (ls.foldl (Desk.deliver event) d).Sound := by
    induction ls generalizing d with
    | nil => exact h
    | cons l ls ih => exact ih (fun k hk => hls k (by simp [hk])) _ (h.deliver event (hls l (by simp)))
  refine hfold _ (fun l hl => ?_) _ (h.still ⟨rfl, rfl⟩)
  simp only [Bus.audience, List.mem_map, List.mem_filter] at hl
  obtain ⟨s, ⟨hs, -⟩, rfl⟩ := hl
  exact h.bus s hs

theorem Sound.handled (h : d.Sound) (run : RunId) : (d.handled run).Sound := by
  simp only [Desk.handled]
  split
  · refine Sound.still ?_ (wakeAll_still _ _)
    exact h.modifyBox run fun _ hb => hb
  · exact h.modifyBox run fun _ hb => hb

theorem Sound.unsubscribeAll (h : d.Sound) (tokens : List Nat) :
    Sound { d with host := { d.host with bus := d.host.bus.unsubscribeAll tokens } } := by
  refine ⟨h.mail, ?_⟩
  have hfold (bus : Bus Listener) (hbus : ∀ s ∈ bus.subscriptions, s.listener.confined = true) :
      ∀ s ∈ (bus.unsubscribeAll tokens).subscriptions, s.listener.confined = true := by
    induction tokens generalizing bus with
    | nil => exact hbus
    | cons t tokens ih => exact ih _ fun s hs => hbus s (List.mem_filter.1 hs).1
  exact hfold _ h.bus

theorem Sound.subscribe (h : d.Sound) (pattern : String) {listener : Listener} (hl : listener.confined = true) :
    Sound { d with host := { d.host with bus := (d.host.bus.subscribe pattern listener).2 } } := by
  refine ⟨h.mail, fun s hs => ?_⟩
  simp only [Bus.subscribe, List.mem_append, List.mem_singleton] at hs
  rcases hs with hs | rfl
  · exact h.bus s hs
  · exact hl

end Desk

/-- A built-in function neither changes the bus nor publishes. -/
theorem DeskFn.apply_bus (f : DeskFn) (h : Heap) (host : Host) (args : List Value) :
    (f.apply h host args).host.bus = host.bus ∧ (f.apply h host args).host.published = host.published := by
  have hreading (p : Except Failure Plain) : (DeskFn.reading h host p).host = host := by
    unfold DeskFn.reading
    split
    · rfl
    · split <;> rfl
  unfold DeskFn.apply
  split
  · split <;> exact ⟨rfl, rfl⟩
  all_goals first | (rw [hreading]; exact ⟨rfl, rfl⟩) | exact ⟨rfl, rfl⟩

theorem Builtin.apply_bus (f : Builtin) (h : Heap) (host : Host) (args : List Value) :
    (f.apply h host args).host.bus = host.bus ∧ (f.apply h host args).host.published = host.published := by
  have hreached (o : Outcome) : (Builtin.reached h host o).host = host := by
    unfold Builtin.reached
    split <;> rfl
  cases f with
  | desk f => exact f.apply_bus h host args
  | _ => simp only [Builtin.apply, hreached, and_self]

theorem Builtin.call_bus (name : String) (h : Heap) (host : Host) (args : List Value) :
    (Builtin.call name h host args).host.bus = host.bus ∧
      (Builtin.call name h host args).host.published = host.published := by
  unfold Builtin.call
  split
  · exact ⟨rfl, rfl⟩
  · split
    · exact ⟨rfl, rfl⟩
    · exact Builtin.apply_bus _ h host args

end DeskScript
