import DeskScript.Proofs.Machine.Liveness

set_option autoImplicit false

/-!
# A handler that calls for itself

A handler that emits its own event is started again as soon as it has ended, and with a yield after every statement the
main thread finds it busy whenever it looks. `Starving` is what such a world keeps; the program of the main thread never
comes to its end.
-/

namespace DeskScript

namespace Moment

/-- The move of a world that is left to itself: the first entry of the queue goes on. -/
def follow : Moment → Moment
  | resting w =>
    match w.desk.ready.pop? with
    | none => resting w
    | some (.thread id side, ready) => within ((w.dequeued ready).setRun id default) id side
        ((w.run id).firstStep (w.dequeued ready).desk side)
    | some (entry, ready) => resting ((w.dequeued ready).advance entry)
  | within w id side s =>
    if s.pace = .go then within w id side (Run.step side s.run s.desk s.thread) else resting (w.rest id side s)

theorem follow_takes {w : World} (h : w.desk.ready.toList ≠ []) : ∃ entry, Takes entry (resting w) (resting w).follow := by
  simp only [follow]
  split
  · rename_i hnone
    exact absurd ((Queue.pop?_eq_none_iff _).1 hnone) h
  · rename_i hpop
    exact ⟨_, .thread hpop⟩
  · rename_i entry ready hthread hpop
    exact ⟨entry, .entry hpop fun id side hentry => hthread id side hentry⟩

theorem follow_next (m : Moment) : Next m m.follow := by
  cases m with
  | resting w =>
    simp only [follow]
    split
    · exact .driven (.wait w w.awaited)
    · rename_i hpop
      exact .thread hpop
    · rename_i entry ready hthread hpop
      exact .entry hpop fun id side hentry => hthread id side hentry
  | within w id side s =>
    simp only [follow]
    split
    · rename_i hgo
      exact .step hgo
    · rename_i hpace
      exact .rest hpace

def after (m : Moment) : Nat → Moment
  | 0 => m
  | n + 1 => (m.after n).follow

theorem after_reachable {m : Moment} (h : m.Reachable) (n : Nat) : (m.after n).Reachable := by
  induction n with
  | zero => exact h
  | succ n ih => exact ih.next (follow_next _)

end Moment

def Course.leftAlone (m : Moment) (h : m.Reachable) : Course where
  moment := m.after
  reachable := h
  next n := Moment.follow_next _
  fair n w hrest hready := by
    refine ⟨n, Nat.le_refl n, ?_⟩
    rw [Moment.after, hrest]
    exact Moment.follow_takes hready

namespace Again

def event : Expr := .literal default (.text "t")

def emit : Stmt := .emit default event none

def body : Block Stmt := ⟨default, [emit]⟩

def print : Stmt := .print default (.literal default (.text "a"))

/-- The tokens of `on "t" {emit "t"}`, `emit "t"` and `print "a"`, without places. -/
def tokens : List Token :=
  [.keyword .on, .text "t", .symbol .leftBrace, .keyword .emit, .text "t", .symbol .rightBrace, .newline, .keyword .emit,
    .text "t", .newline, .keyword .print, .text "a", .finish].map fun content => ⟨content, "", default⟩

def program : Program := ⟨default, [.on default event body, emit, print], #[]⟩

def below (scope : ScopeId) : List Frame := [.located default, .following [] scope, .handler]

def held : List Frame := [.entering print 0, .located default, .following [] 0, .program]

def waiting (service : ServiceId) : Thread := ⟨.resume service false, .clearing :: held⟩

def yielded (scope : ScopeId) : Thread := ⟨.recheck, .entering emit scope :: below scope⟩

/-- A run that nothing stops. -/
structure Unhindered (r : Run) : Prop where
  named : r.id = 0
  interval : r.limits.yieldInterval = 1
  free : r.objection? 0 = none
  kept : r.workerCancelled = false
  roomy : ∀ frames, r.holds frames = true

def isMain : Ready → Bool
  | .thread 0 .main => true
  | _ => false

structure Circling (d : Desk) : Prop where
  now : d.host.clock.seconds = 0
  subscribed : d.host.bus.subscriptions = [⟨1, "t", .handler 0 body 0⟩]
  boxes : d.boxes.size = 1
  isOpen : (d.box 0).closed = false
  awake : (d.box 0).waiting = false
  mail : ∀ m ∈ (d.box 0).mail.toList, m.body = body ∧ m.event.payload = .null
  services : ∀ j, j < d.services.size → (d.service j).run = 0 ∧ (d.service j).side = .main ∧
    (d.service j).work = .idle ∧ (d.service j).cancelled = false
  ready : ∀ e ∈ d.ready.toList, e = .thread 0 .worker ∨ e = .thread 0 .main ∨ ∃ j, j < d.services.size ∧ e = .service j

def turns : Stage → Nat
  | .done _ => 1
  | _ => 0

structure Awaiting (k : ServiceId) (d : Desk) : Prop where
  size : k < d.services.size
  others : ∀ j, j < d.services.size → j ≠ k → ∃ result, (d.service j).stage = .done result
  stage : (d.service k).stage = .fresh ∨ (d.service k).stage = .parked ∨ (d.service k).stage = .woken (.ok .null) ∨
    (d.service k).stage = .done (.data .null)
  once : d.ready.toList.countP isMain = turns (d.service k).stage

structure Served (d : Desk) : Prop where
  all : ∀ j, j < d.services.size → ∃ result, (d.service j).stage = .done result
  once : d.ready.toList.countP isMain = 0

variable {d d' : Desk} {r : Run} {k : ServiceId} {scope : ScopeId}

theorem Circling.box_modifyBox (h : Circling d) (f : Mailbox → Mailbox) : (d.modifyBox 0 f).box 0 = f (d.box 0) := by
  have hsize : 0 < d.boxes.size := by rw [h.boxes]; exact Nat.one_pos
  simp only [Desk.modifyBox, Desk.box, Array.getD_eq_getD_getElem?, Array.getElem?_modify, if_pos,
    Array.getElem?_eq_getElem hsize]
  rfl

/-- Services and the queue are as they were; mail may have come or gone. -/
theorem Circling.boxed (h : Circling d) (f : Mailbox → Mailbox) (hclosed : ∀ b, (f b).closed = b.closed)
    (hwaiting : ∀ b, b.waiting = false → (f b).waiting = false)
    (hmail : ∀ m ∈ (f (d.box 0)).mail.toList, m.body = body ∧ m.event.payload = .null) : Circling (d.modifyBox 0 f) := by
  have hbox := h.box_modifyBox f
  refine ⟨h.now, h.subscribed, Array.size_modify.trans h.boxes, ?_, ?_, ?_, h.services, h.ready⟩
  · rw [hbox, hclosed]
    exact h.isOpen
  · rw [hbox]
    exact hwaiting _ h.awake
  · rw [hbox]
    exact hmail

theorem Circling.enqueue (h : Circling d) : Circling (d.enqueue (.thread 0 .worker)) := by
  refine ⟨h.now, h.subscribed, h.boxes, h.isOpen, h.awake, h.mail, h.services, fun e he => ?_⟩
  rw [Desk.enqueue_ready] at he
  rcases List.mem_append.1 he with he | he
  · exact h.ready e he
  · exact .inl (List.mem_singleton.1 he)

theorem Awaiting.enqueue (h : Awaiting k d) : Awaiting k (d.enqueue (.thread 0 .worker)) := by
  refine ⟨h.size, h.others, h.stage, ?_⟩
  rw [Desk.enqueue_ready, List.countP_append]
  exact h.once

theorem Circling.dequeue (h : Circling d) {entry : Ready} {ready : Queue Ready}
    (hready : d.ready.toList = entry :: ready.toList) : Circling { d with ready } := by
  refine ⟨h.now, h.subscribed, h.boxes, h.isOpen, h.awake, h.mail, h.services, fun e he => h.ready e ?_⟩
  rw [hready]
  exact List.mem_cons_of_mem entry he

theorem Awaiting.dequeue (h : Awaiting k d) {entry : Ready} {ready : Queue Ready}
    (hready : d.ready.toList = entry :: ready.toList) (hentry : isMain entry = false) : Awaiting k { d with ready } := by
  refine ⟨h.size, h.others, h.stage, ?_⟩
  have honce := h.once
  rw [hready, List.countP_cons_of_neg (by rw [hentry]; nofun)] at honce
  exact honce

/-- The main thread is taken from the queue: its service is done. -/
theorem Awaiting.served (h : Awaiting k d) {ready : Queue Ready}
    (hready : d.ready.toList = .thread 0 .main :: ready.toList) :
    (d.service k).stage = .done (.data .null) ∧ Served { d with ready } := by
  have honce := h.once
  rw [hready, List.countP_cons_of_pos rfl] at honce
  have hdone : (d.service k).stage = .done (.data .null) := by
    rcases h.stage with hstage | hstage | hstage | hstage
    · rw [hstage] at honce; cases honce
    · rw [hstage] at honce; cases honce
    · rw [hstage] at honce; cases honce
    · exact hstage
  rw [hdone] at honce
  refine ⟨hdone, ⟨fun j hj => ?_, Nat.succ.inj honce⟩⟩
  by_cases hk : j = k
  · exact ⟨_, hk ▸ hdone⟩
  · exact h.others j hj hk

theorem Circling.setStage (h : Circling d) (stage : Stage) : Circling (d.setStage k stage) := by
  have hsize : (d.setStage k stage).services.size = d.services.size := Array.size_modify
  refine ⟨h.now, h.subscribed, h.boxes, h.isOpen, h.awake, h.mail, fun j hj => ?_, fun e he => ?_⟩
  · rw [hsize] at hj
    rw [Desk.setStage, Desk.service_modify]
    split
    · rename_i hk
      exact hk.1 ▸ h.services j hj
    · exact h.services j hj
  · rw [hsize]
    exact h.ready e he

theorem Awaiting.setStage (h : Awaiting k d) {stage : Stage} (hservices : d'.services = (d.setStage k stage).services)
    (hstage : stage = .parked ∨ stage = .woken (.ok .null) ∨ stage = .done (.data .null))
    (honce : d'.ready.toList.countP isMain = turns stage) : Awaiting k d' := by
  have hsize : d'.services.size = d.services.size := by rw [hservices]; exact Array.size_modify
  have hservice (j : ServiceId) : d'.service j = if j = k ∧ k < d.services.size then { d.service k with stage } else
      d.service j := by
    rw [← d.service_modify k j fun s => { s with stage }, Desk.service, hservices]
    rfl
  have hself : (d'.service k).stage = stage := by rw [hservice, if_pos ⟨rfl, h.size⟩]
  refine ⟨hsize ▸ h.size, fun j hj hk => ?_, ?_, ?_⟩
  · rw [hservice, if_neg fun hboth => hk hboth.1]
    exact h.others j (hsize ▸ hj) hk
  · rw [hself]
    exact .inr hstage
  · rw [hself]
    exact honce

theorem Circling.ready_service (h : Circling d) (hsize : k < d.services.size) : Circling (d.enqueue (.service k)) := by
  refine ⟨h.now, h.subscribed, h.boxes, h.isOpen, h.awake, h.mail, h.services, fun e he => ?_⟩
  rw [Desk.enqueue_ready] at he
  rcases List.mem_append.1 he with he | he
  · exact h.ready e he
  · exact .inr (.inr ⟨k, hsize, List.mem_singleton.1 he⟩)

/-- Only the service that the main thread waits for can be woken. -/
theorem wake_circling (h : Circling d) (hk : Awaiting k d) (j : ServiceId) :
    Circling (d.wake j (.ok .null)) ∧ Awaiting k (d.wake j (.ok .null)) := by
  unfold Desk.wake
  split
  · rename_i hparked
    have hj : j < d.services.size := by
      apply Classical.byContradiction
      intro hlarge
      rw [Desk.service, Array.getD_eq_getD_getElem?, Array.getElem?_eq_none (Nat.not_lt.1 hlarge)] at hparked
      cases hparked
    obtain rfl : j = k := by
      apply Classical.byContradiction
      intro hne
      obtain ⟨result, hdone⟩ := hk.others j hj hne
      rw [hdone] at hparked
      cases hparked
    have hsize : j < (d.setStage j (.woken (.ok .null))).services.size := Nat.lt_of_lt_of_eq hj Array.size_modify.symm
    refine ⟨(h.setStage _).ready_service hsize, hk.setStage rfl (.inr (.inl rfl)) ?_⟩
    rw [Desk.enqueue_ready, List.countP_append]
    exact hk.once.trans (by rw [hparked]; rfl)
  · exact ⟨h, hk⟩

theorem wakeAll_circling (ids : List ServiceId) (h : Circling d) (hk : Awaiting k d) :
    Circling (d.wakeAll ids) ∧ Awaiting k (d.wakeAll ids) := by
  unfold Desk.wakeAll
  induction ids generalizing d with
  | nil => exact ⟨h, hk⟩
  | cons j ids ih =>
    obtain ⟨h', hk'⟩ := wake_circling h hk j
    exact ih h' hk'

theorem handled_circling (h : Circling d) (hk : Awaiting k d) :
    Circling (d.handled 0) ∧ Awaiting k (d.handled 0) := by
  have hboxed (f : Mailbox → Mailbox) (hf : ∀ b, f b = { b with unfinished := (f b).unfinished, joiners := (f b).joiners }) :
      Circling (d.modifyBox 0 f) := by
    refine h.boxed f (fun b => by rw [hf]) (fun b hb => ?_) ?_
    · rw [hf]
      exact hb
    · rw [hf]
      exact h.mail
  simp only [Desk.handled]
  split
  · refine wakeAll_circling _ (hboxed _ fun _ => rfl) ?_
    exact ⟨hk.size, hk.others, hk.stage, hk.once⟩
  · exact ⟨hboxed _ fun _ => rfl, hk.size, hk.others, hk.stage, hk.once⟩

theorem becomeIdle_circling (r : Run) (h : Circling d) (hk : Awaiting k d) :
    Circling (r.becomeIdle d).2 ∧ Awaiting k (r.becomeIdle d).2 := by
  unfold Run.becomeIdle
  split
  · exact ⟨h, hk⟩
  · exact wakeAll_circling _ h hk

/-- The event of the handler reaches the box of the run. -/
theorem publish_eq (h : Circling d) :
    ∃ host : Host, host.clock = d.host.clock ∧ host.bus.subscriptions = d.host.bus.subscriptions ∧
      d.publish ⟨"t", .null⟩ = { d with host }.modifyBox 0 fun b =>
        { b with mail := b.mail.push ⟨body, 0, "t", .null⟩, unfinished := b.unfinished + 1, waiting := false } := by
  have haudience : d.host.bus.audience "t" = [.handler 0 body 0] := by
    rw [Bus.audience, h.subscribed]
    rfl
  have hbox (host : Host) : ({ d with host } : Desk).box 0 = d.box 0 := rfl
  refine ⟨{ d.host with bus := (d.host.bus.publish ⟨"t", .null⟩).2, published := d.host.published.push ⟨"t", .null⟩ }, rfl,
    rfl, ?_⟩
  simp only [Desk.publish, Bus.publish, haudience, List.foldl, Desk.deliver, Desk.post, hbox, h.isOpen, h.awake,
    Bool.false_eq_true, if_false]

theorem publish_circling (h : Circling d) (hk : Awaiting k d) :
    Circling (d.publish ⟨"t", .null⟩) ∧ Awaiting k (d.publish ⟨"t", .null⟩) ∧
      ((d.publish ⟨"t", .null⟩).box 0).mail.toList ≠ [] := by
  obtain ⟨host, hclock, hbus, hpublish⟩ := publish_eq h
  have hhost : Circling { d with host } :=
    ⟨(congrArg Clock.seconds hclock).trans h.now, hbus.trans h.subscribed, h.boxes, h.isOpen, h.awake, h.mail, h.services,
      h.ready⟩
  rw [hpublish]
  refine ⟨hhost.boxed _ (fun _ => rfl) (fun _ _ => rfl) fun m hm => ?_, ⟨hk.size, hk.others, hk.stage, hk.once⟩, ?_⟩
  · rw [Queue.toList_push] at hm
    rcases List.mem_append.1 hm with hm | hm
    · exact h.mail m hm
    · obtain rfl := List.mem_singleton.1 hm
      exact ⟨rfl, rfl⟩
  · rw [hhost.box_modifyBox, Queue.toList_push]
    exact List.append_ne_nil_of_right_ne_nil _ nofun

theorem open_circling (h : Circling d) (hs : Served d) :
    Circling (d.open_ 0 .main .idle).2 ∧ Awaiting d.services.size (d.open_ 0 .main .idle).2 := by
  have hsize := d.size_open 0 .main .idle
  have hservice (j : ServiceId) := d.service_open 0 .main .idle j
  have hready : (d.open_ 0 .main .idle).2.ready.toList = d.ready.toList ++ [.service d.services.size] :=
    d.ready.toList_push _
  refine ⟨⟨h.now, h.subscribed, h.boxes, h.isOpen, h.awake, h.mail, fun j hj => ?_, fun e he => ?_⟩,
    ⟨hsize ▸ Nat.lt_succ_self _, fun j hj hne => ?_, ?_, ?_⟩⟩
  · rw [hservice]
    split
    · exact ⟨rfl, rfl, rfl, rfl⟩
    · rename_i hne
      exact h.services j (Nat.lt_of_le_of_ne (Nat.le_of_lt_succ (Nat.lt_of_lt_of_eq hj hsize)) hne)
  · rw [hready] at he
    rw [hsize]
    rcases List.mem_append.1 he with he | he
    · rcases h.ready e he with he | he | ⟨j, hj, he⟩
      · exact .inl he
      · exact .inr (.inl he)
      · exact .inr (.inr ⟨j, Nat.lt_succ_of_lt hj, he⟩)
    · exact .inr (.inr ⟨d.services.size, Nat.lt_succ_self _, List.mem_singleton.1 he⟩)
  · rw [hservice, if_neg hne]
    exact hs.all j (Nat.lt_of_le_of_ne (Nat.le_of_lt_succ (Nat.lt_of_lt_of_eq hj hsize)) hne)
  · rw [hservice, if_pos rfl]
    exact .inl rfl
  · rw [hservice, if_pos rfl, hready, List.countP_append, hs.once]
    rfl

theorem complete_circling (h : Circling d) (hk : Awaiting k d) (hbefore : turns (d.service k).stage = 0) :
    Circling (d.complete k (.data .null)) ∧ Awaiting k (d.complete k (.data .null)) := by
  obtain ⟨hrun, hside, -, -⟩ := h.services k hk.size
  have hcomplete : d.complete k (.data .null) = (d.setStage k (.done (.data .null))).enqueue (.thread 0 .main) := by
    rw [Desk.complete, hrun, hside]
  have hstaged : Circling (d.setStage k (.done (.data .null))) := h.setStage _
  rw [hcomplete]
  refine ⟨⟨hstaged.now, hstaged.subscribed, hstaged.boxes, hstaged.isOpen, hstaged.awake, hstaged.mail, hstaged.services,
    fun e he => ?_⟩, hk.setStage rfl (.inr (.inr rfl)) ?_⟩
  · rw [Desk.enqueue_ready] at he
    rcases List.mem_append.1 he with he | he
    · exact hstaged.ready e he
    · exact .inr (.inl (List.mem_singleton.1 he))
  · rw [Desk.enqueue_ready, List.countP_append]
    change d.ready.toList.countP isMain + 1 = 1
    rw [hk.once, hbefore]

theorem stepService_circling {j : ServiceId} (hr : Unhindered r) (hbusy : r.governor.idle = false) (h : Circling d)
    (hk : Awaiting k d) (hj : j < d.services.size) :
    Unhindered (r.stepService d j).1 ∧ (r.stepService d j).1.governor.idle = false ∧
      (r.stepService d j).1.main = r.main ∧ (r.stepService d j).1.worker = r.worker ∧
      Circling (r.stepService d j).2 ∧ Awaiting k (r.stepService d j).2 := by
  obtain ⟨-, -, hwork, hcancelled⟩ := h.services j hj
  by_cases hjk : j = k
  · subst hjk
    rcases hk.stage with hstage | hstage | hstage | hstage
    · have hparked : r.stepService d j = ({ r with governor := { r.governor with waiters := r.governor.waiters ++ [j] } },
          d.setStage j .parked) := by
        simp only [Run.stepService, hstage, hcancelled, hwork, Run.beginService, hbusy, Bool.false_eq_true, if_false]
      rw [hparked]
      exact ⟨⟨hr.named, hr.interval, hr.free, hr.kept, hr.roomy⟩, hbusy, rfl, rfl, h.setStage _,
        hk.setStage rfl (.inl rfl) (hk.once.trans (by rw [hstage]; rfl))⟩
    · have hsame : r.stepService d j = (r, d) := by simp only [Run.stepService, hstage, hcancelled]
      rw [hsame]
      exact ⟨hr, hbusy, rfl, rfl, h, hk⟩
    · have hdone : r.stepService d j = (r, d.complete j (.data .null)) := by
        simp only [Run.stepService, hstage, hcancelled, ServiceResult.ofReply]
      rw [hdone]
      exact ⟨hr, hbusy, rfl, rfl, complete_circling h hk (by rw [hstage]; rfl)⟩
    · have hsame : r.stepService d j = (r, d) := by simp only [Run.stepService, hstage]
      rw [hsame]
      exact ⟨hr, hbusy, rfl, rfl, h, hk⟩
  · obtain ⟨result, hstage⟩ := hk.others j hj hjk
    have hsame : r.stepService d j = (r, d) := by simp only [Run.stepService, hstage]
    rw [hsame]
    exact ⟨hr, hbusy, rfl, rfl, h, hk⟩

inductive Handling (r : Run) (d : Desk) : Thread → Pace → Prop
  | clear (scope : ScopeId) : Handling r d ⟨.clear, .entering emit scope :: below scope⟩ .go
  | passed (scope : ScopeId) : Handling r d ⟨.passed, .entering emit scope :: below scope⟩ .go
  | perform (scope : ScopeId) : Handling r d ⟨.perform emit scope, below scope⟩ .go
  | evaluate (scope : ScopeId) : Handling r d ⟨.evaluate event scope, .emitName none scope :: below scope⟩ .go
  | value (scope : ScopeId) : Handling r d ⟨.value (.str "t"), .emitName none scope :: below scope⟩ .go
  | emitted (scope : ScopeId) (hmail : (d.box 0).mail.toList ≠ []) : Handling r d ⟨.ended none, below scope⟩ .go
  | located (scope : ScopeId) (hmail : (d.box 0).mail.toList ≠ []) :
      Handling r d ⟨.ended none, [.following [] scope, .handler]⟩ .go
  | following (scope : ScopeId) (hmail : (d.box 0).mail.toList ≠ []) :
      Handling r d ⟨.statements [] scope, [.handler]⟩ .go
  | finished (hmail : (d.box 0).mail.toList ≠ []) : Handling r d ⟨.ended none, [.handler]⟩ .go
  | receive (hmail : (d.box 0).mail.toList ≠ []) : Handling r d ⟨.receive, []⟩ .go
  | started (scope : ScopeId) (hbusy : r.governor.idle = false) :
      Handling r d ⟨.statements [emit] scope, [.handler]⟩ .go
  | checkpoint (scope : ScopeId) (hbusy : r.governor.idle = false) :
      Handling r d ⟨.checkpoint, .entering emit scope :: below scope⟩ .go
  | yielded (scope : ScopeId) (hbusy : r.governor.idle = false) : Handling r d (yielded scope) .yield

structure Serving (k : ServiceId) (s : Step) : Prop where
  run : Unhindered s.run
  desk : Circling s.desk
  awaiting : Awaiting k s.desk
  main : s.run.main = waiting k
  handling : Handling s.run s.desk s.thread s.pace

theorem becomeIdle_unhindered (hr : Unhindered r) (d : Desk) : Unhindered (r.becomeIdle d).1 := by
  unfold Run.becomeIdle
  split
  · exact hr
  · exact ⟨hr.named, hr.interval, hr.free, hr.kept, hr.roomy⟩

theorem leaveHandler_serving (hr : Unhindered r) (hd : Circling d) (hk : Awaiting k d) (hmain : r.main = waiting k)
    (hmail : (d.box 0).mail.toList ≠ []) : Serving k (r.leaveHandler d (.ok ())) := by
  have hleft : Unhindered { r with governor := { r.governor with handling := false } } :=
    ⟨hr.named, hr.interval, hr.free, hr.kept, hr.roomy⟩
  have hrun : Unhindered (r.handlerFinished d).1 := becomeIdle_unhindered hleft d
  have hidle := becomeIdle_circling { r with governor := { r.governor with handling := false } } hd hk
  have hhandled := handled_circling hidle.1 hidle.2
  rw [← (becomeIdle_unhindered hleft d).named] at hhandled
  refine ⟨hrun, hhandled.1, hhandled.2, (r.handlerFinished_quiet d).main.trans hmain, .receive ?_⟩
  have hbox := r.handlerFinished_mail d
  rw [hr.named] at hbox
  change ((r.handlerFinished d).2.box 0).mail.toList ≠ []
  rw [hbox]
  exact hmail

theorem receive_serving (hr : Unhindered r) (hd : Circling d) (hk : Awaiting k d) (hmain : r.main = waiting k)
    (hmail : (d.box 0).mail.toList ≠ []) : Serving k (r.receive d) := by
  simp only [Run.receive, hr.named, hd.isOpen, Bool.false_eq_true, if_false]
  split
  · rename_i hempty
    exact absurd ((Queue.pop?_eq_none_iff _).1 hempty) hmail
  · rename_i mail rest hpop
    have hlist := Queue.toList_of_pop? _ _ _ hpop
    obtain ⟨hbody, hpayload⟩ := hd.mail mail (by rw [hlist]; exact List.mem_cons_self)
    have hd' : Circling (d.modifyBox 0 fun b => { b with mail := rest }) := by
      refine hd.boxed _ (fun _ => rfl) (fun _ hb => hb) fun m hm => hd.mail m ?_
      rw [hlist]
      exact List.mem_cons_of_mem mail hm
    rw [hpayload, hbody]
    exact ⟨⟨hr.named, hr.interval, hr.free, hr.kept, hr.roomy⟩, hd', ⟨hk.size, hk.others, hk.stage, hk.once⟩, hmain, .started _ rfl⟩

theorem checkpoint_serving (hr : Unhindered r) (hd : Circling d) (hk : Awaiting k d) (hmain : r.main = waiting k)
    (hbusy : r.governor.idle = false) (scope : ScopeId) :
    Serving k (r.checkpoint d (.entering emit scope :: below scope)) := by
  have hyields : ({ r with governor := { r.governor with begun := r.governor.begun + 1 } } : Run).yields = .ok true := by
    simp [Run.yields, hr.interval]
  simp only [Run.checkpoint, hd.now, hr.free, hyields]
  exact ⟨⟨hr.named, hr.interval, hr.free, hr.kept, hr.roomy⟩, hd, hk, hmain, .yielded scope hbusy⟩

theorem Serving.step {s : Step} (h : Serving k s) (hgo : s.pace = .go) :
    Serving k (Run.step .worker s.run s.desk s.thread) := by
  obtain ⟨r, d, t, pace⟩ := s
  obtain ⟨hr, hd, hk, hmain, hhandling⟩ := h
  cases hhandling with
  | clear scope => exact ⟨hr, hd, hk, hmain, .passed scope⟩
  | passed scope => exact ⟨hr, hd, hk, hmain, .perform scope⟩
  | perform scope => exact ⟨hr, hd, hk, hmain, .evaluate scope⟩
  | evaluate scope => exact ⟨hr, hd, hk, hmain, .value scope⟩
  | value scope =>
    obtain ⟨hd', hk', hmail⟩ := publish_circling hd hk
    exact ⟨hr, hd', hk', hmain, .emitted scope hmail⟩
  | emitted scope hmail => exact ⟨hr, hd, hk, hmain, .located scope hmail⟩
  | located scope hmail => exact ⟨hr, hd, hk, hmain, .following scope hmail⟩
  | following scope hmail => exact ⟨hr, hd, hk, hmain, .finished hmail⟩
  | finished hmail => exact leaveHandler_serving hr hd hk hmain hmail
  | receive hmail => exact receive_serving hr hd hk hmain hmail
  | started scope hbusy =>
    have hroom : Run.step .worker r d ⟨.statements [emit] scope, [.handler]⟩ =
        .go r d .checkpoint (.entering emit scope :: below scope) := if_pos (hr.roomy _)
    rw [hroom]
    exact ⟨hr, hd, hk, hmain, .checkpoint scope hbusy⟩
  | checkpoint scope hbusy => exact checkpoint_serving hr hd hk hmain hbusy scope
  | yielded scope hbusy => cases hgo

inductive Looking (d : Desk) : Thread → Pace → Prop
  | replied (hs : Served d) : Looking d ⟨.replied (.data .null), .clearing :: held⟩ .go
  | clear (hs : Served d) : Looking d ⟨.clear, held⟩ .go
  | request (hs : Served d) : Looking d ⟨.request .idle, .clearing :: held⟩ .go
  | waiting (k : ServiceId) (hk : Awaiting k d) : Looking d (waiting k) .park

structure Watching (scope : ScopeId) (s : Step) : Prop where
  run : Unhindered s.run
  busy : s.run.governor.idle = false
  desk : Circling s.desk
  worker : s.run.worker = yielded scope
  looking : Looking s.desk s.thread s.pace

theorem Watching.step {s : Step} (h : Watching scope s) (hgo : s.pace = .go) :
    Watching scope (Run.step .main s.run s.desk s.thread) := by
  obtain ⟨r, d, t, pace⟩ := s
  obtain ⟨hr, hbusy, hd, hworker, hlooking⟩ := h
  change Unhindered r at hr
  change r.governor.idle = false at hbusy
  change Circling d at hd
  cases hlooking with
  | replied hs => exact ⟨hr, hbusy, hd, hworker, .clear hs⟩
  | clear hs =>
    have hrequest : Run.step .main r d ⟨.clear, held⟩ = .go r d (.request .idle) (.clearing :: held) := by
      simp [Run.step, Run.waitClear, Run.isClear, hbusy]
    rw [hrequest]
    exact ⟨hr, hbusy, hd, hworker, .request hs⟩
  | request hs =>
    obtain ⟨hd', hk⟩ := open_circling hd hs
    have hopen : Run.step .main r d ⟨.request .idle, .clearing :: held⟩ =
        ⟨{ r with governor := { r.governor with pending := r.governor.pending ++ [d.services.size] } },
          (d.open_ 0 .main .idle).2, waiting d.services.size, .park⟩ := by
      simp only [Run.step, Run.request, hd.now, hr.free, hr.named]
      rfl
    rw [hopen]
    exact ⟨⟨hr.named, hr.interval, hr.free, hr.kept, hr.roomy⟩, hbusy, hd', hworker, .waiting _ hk⟩
  | waiting k hk => cases hgo

/-- The world goes around: the handler is started again and again, and the main thread waits. -/
inductive Starving : Moment → Prop
  | resting {w : World} {k : ServiceId} {scope : ScopeId} (hsize : w.runs.size = 1) (hrun : Unhindered (w.run 0))
      (hbusy : (w.run 0).governor.idle = false) (hdesk : Circling w.desk) (hawaiting : Awaiting k w.desk)
      (hmain : (w.run 0).main = waiting k) (hworker : (w.run 0).worker = yielded scope) : Starving (.resting w)
  | worker {w : World} {k : ServiceId} {s : Step} (hsize : w.runs.size = 1) (hs : Serving k s) :
      Starving (.within w 0 .worker s)
  | main {w : World} {scope : ScopeId} {s : Step} (hsize : w.runs.size = 1) (hs : Watching scope s) :
      Starving (.within w 0 .main s)

theorem starving_setRun {w : World} (hsize : w.runs.size = 1) (hr : Unhindered r) (hbusy : r.governor.idle = false)
    (hd : Circling d) (hk : Awaiting k d) (hmain : r.main = waiting k) (hworker : r.worker = yielded scope) :
    Starving (.resting (({ w with desk := d } : World).setRun 0 r)) := by
  have hrun := ({ w with desk := d } : World).run_setRun_self (hsize.symm ▸ Nat.one_pos) r
  rw [← hrun] at hr hbusy hmain hworker
  exact .resting ((World.size_setRun _ _ _).trans hsize) hr hbusy hd hk hmain hworker

theorem Serving.rest {w : World} {s : Step} (hsize : w.runs.size = 1) (hs : Serving k s) (hpace : s.pace ≠ .go) :
    Starving (.resting (w.rest 0 .worker s)) := by
  obtain ⟨r, d, t, pace⟩ := s
  obtain ⟨hr, hd, hk, hmain, hhandling⟩ := hs
  change Unhindered r at hr
  change Circling d at hd
  change Awaiting k d at hk
  cases hhandling with
  | yielded scope hbusy =>
    have hrun : Unhindered { r with worker := yielded scope } := ⟨hr.named, hr.interval, hr.free, hr.kept, hr.roomy⟩
    refine starving_setRun hsize hrun hbusy ?_ ?_ hmain rfl
    · change Circling (d.enqueue (.thread r.id .worker))
      rw [hr.named]
      exact hd.enqueue
    · change Awaiting k (d.enqueue (.thread r.id .worker))
      rw [hr.named]
      exact hk.enqueue
  | _ => exact absurd rfl hpace

theorem Watching.rest {w : World} {s : Step} (hsize : w.runs.size = 1) (hs : Watching scope s) (hpace : s.pace ≠ .go) :
    Starving (.resting (w.rest 0 .main s)) := by
  obtain ⟨r, d, t, pace⟩ := s
  obtain ⟨hr, hbusy, hd, hworker, hlooking⟩ := hs
  cases hlooking with
  | waiting k hk =>
    have hrun : Unhindered { r with main := waiting k } := ⟨hr.named, hr.interval, hr.free, hr.kept, hr.roomy⟩
    exact starving_setRun hsize hrun hbusy hd hk rfl hworker
  | _ => exact absurd rfl hpace

theorem firstStep_serving (hr : Unhindered r) (hd : Circling d) (hk : Awaiting k d) (hmain : r.main = waiting k)
    (hworker : r.worker = yielded scope) : Serving k (r.firstStep d .worker) := by
  have hstep : r.firstStep d .worker = .go r d .clear (.entering emit scope :: below scope) := by
    simp only [Run.firstStep, hr.kept, Bool.false_eq_true, if_false, hworker, yielded, Run.step, Run.recheck, hd.now, hr.free]
  rw [hstep]
  exact ⟨hr, hd, hk, hmain, .clear scope⟩

theorem firstStep_watching (hr : Unhindered r) (hbusy : r.governor.idle = false) (hd : Circling d) (hs : Served d)
    (hdone : (d.service k).stage = .done (.data .null)) (hmain : r.main = waiting k)
    (hworker : r.worker = yielded scope) : Watching scope (r.firstStep d .main) := by
  have hstep : r.firstStep d .main = .go { r with governor := { r.governor with
      pending := r.governor.pending.erase k, idle := r.governor.idle && !(false && r.governor.handling) } } d
      (.replied (.data .null)) (.clearing :: held) := by
    simp only [Run.firstStep, hmain, waiting, Run.step, Run.resume, hdone, Bool.false_eq_true, if_false]
  rw [hstep]
  refine ⟨⟨hr.named, hr.interval, hr.free, hr.kept, hr.roomy⟩, ?_, hd, hworker, .replied hs⟩
  change (r.governor.idle && _) = false
  rw [hbusy]
  rfl

theorem Starving.follow {m : Moment} (h : Starving m) : Starving m.follow := by
  cases h with
  | @resting w k scope hsize hrun hbusy hdesk hawaiting hmain hworker =>
    simp only [Moment.follow]
    split
    · exact .resting hsize hrun hbusy hdesk hawaiting hmain hworker
    · rename_i id side ready hpop
      have hready := Queue.toList_of_pop? _ _ _ hpop
      have hsize' : ((w.dequeued ready).setRun id default).runs.size = 1 := (World.size_setRun _ _ _).trans hsize
      rcases hdesk.ready (.thread id side) (by rw [hready]; exact List.mem_cons_self) with hentry | hentry | ⟨j, -, hentry⟩
      · cases hentry
        exact .worker hsize' (firstStep_serving hrun (hdesk.dequeue hready) (hawaiting.dequeue hready rfl) hmain hworker)
      · cases hentry
        obtain ⟨hdone, hs⟩ := hawaiting.served hready
        exact .main hsize' (firstStep_watching hrun hbusy (hdesk.dequeue hready) hs hdone hmain hworker)
      · cases hentry
    · rename_i entry ready hthread hpop
      have hready := Queue.toList_of_pop? _ _ _ hpop
      rcases hdesk.ready entry (by rw [hready]; exact List.mem_cons_self) with rfl | rfl | ⟨j, hj, rfl⟩
      · exact absurd rfl (hthread 0 .worker)
      · exact absurd rfl (hthread 0 .main)
      · obtain ⟨hrun', hbusy', hmain', hworker', hdesk', hawaiting'⟩ :=
          stepService_circling hrun hbusy (hdesk.dequeue hready) (hawaiting.dequeue hready rfl) hj
        have howner : ((w.dequeued ready).desk.service j).run = 0 := (hdesk.services j hj).1
        have hsize' : ((w.dequeued ready).setRun 0 default).runs.size = 1 := (World.size_setRun _ _ _).trans hsize
        simp only [World.advance, howner]
        exact starving_setRun hsize' hrun' hbusy' hdesk' hawaiting' (hmain'.trans hmain) (hworker'.trans hworker)
  | @worker w k s hsize hs =>
    simp only [Moment.follow]
    split
    · rename_i hgo
      exact .worker hsize (hs.step hgo)
    · rename_i hpace
      exact hs.rest hsize hpace
  | @main w scope s hsize hs =>
    simp only [Moment.follow]
    split
    · rename_i hgo
      exact .main hsize (hs.step hgo)
    · rename_i hpace
      exact hs.rest hsize hpace

theorem Starving.held {m : Moment} (h : Starving m) : (m.thread 0 .main).HeldAt held := by
  cases h with
  | @resting w k scope _ _ _ _ _ hmain _ =>
    rw [show Moment.thread 0 .main (.resting w) = waiting k from hmain]
    exact .resume k false
  | @worker w k s _ hs =>
    rw [show Moment.thread 0 .main (.within w 0 .worker s) = waiting k from hs.main]
    exact .resume k false
  | @main w scope s _ hs =>
    obtain ⟨r, d, t, pace⟩ := s
    obtain ⟨-, -, -, -, hlooking⟩ := hs
    change t.HeldAt Again.held
    cases hlooking with
    | replied _ => exact .replied _
    | clear _ => exact .clear
    | request _ => exact .request
    | waiting k _ => exact .resume k false

theorem Starving.awake {m : Moment} (h : Starving m) (service : ServiceId) (releases : Bool) :
    (m.thread 0 .worker).control ≠ .resume service releases := by
  cases h with
  | @resting w k scope _ _ _ _ _ _ hworker =>
    rw [show Moment.thread 0 .worker (.resting w) = yielded scope from hworker]
    nofun
  | @worker w k s _ hs =>
    obtain ⟨r, d, t, pace⟩ := s
    obtain ⟨-, -, -, -, hhandling⟩ := hs
    change t.control ≠ .resume service releases
    cases hhandling <;> nofun
  | @main w scope s _ hs =>
    rw [show Moment.thread 0 .worker (.within w 0 .main s) = yielded scope from hs.worker]
    nofun

theorem Starving.now {m : Moment} (h : Starving m) : m.desk.host.clock.seconds = 0 := by
  cases h with
  | resting _ _ _ hdesk _ _ _ => exact hdesk.now
  | worker _ hs => exact hs.desk.now
  | main _ hs => exact hs.desk.now

def world : World := ({} : World).launch "script" program { yieldInterval := 1 } 0 {} .root

theorem world_reachable : (Moment.resting world).Reachable :=
  Moment.launched_reachable tokens rfl (by simp)

def calling : World where
  desk := {
    host := {
      bus := { nextToken := 2, subscriptions := [⟨1, "t", .handler 0 body 0⟩], recent := [⟨"t", .null⟩] }
      published := #[⟨"t", .null⟩] }
    boxes := #[{ mail := { back := [⟨body, 0, "t", .null⟩] }, unfinished := 1 }]
    ready := { back := [.thread 0 .main, .thread 0 .worker] } }
  runs := #[{
    id := 0, name := "script", program := some program, limits := { yieldInterval := 1 }, subscriptions := [1]
    governor := { begun := 3 }, main := ⟨.recheck, held⟩, worker := ⟨.receive, []⟩ }]
  running := [("script", 0)]

set_option maxRecDepth 2000 in
theorem calling_eq : (Moment.resting world).after 29 = .resting calling := rfl

def begun : World :=
  match (Moment.resting calling).after 8 with
  | .resting w => w
  | .within w _ _ _ => w

theorem begun_eq : (Moment.resting calling).after 8 = .resting begun := rfl

theorem begun_starving : Starving (.resting begun) := by
  have hservices : begun.desk.services.size = 1 := rfl
  have hready : begun.desk.ready.toList = [.thread 0 .worker, .service 0] := rfl
  have hone {j : ServiceId} (hj : j < begun.desk.services.size) : j = 0 := Nat.lt_one_iff.1 (Nat.lt_of_lt_of_eq hj hservices)
  have hdesk : Circling begun.desk := by
    refine ⟨rfl, rfl, rfl, rfl, rfl, ?_, fun j hj => ?_, fun e he => ?_⟩
    · rw [show (begun.desk.box 0).mail.toList = [] from rfl]
      nofun
    · rw [hone hj]
      exact ⟨rfl, rfl, rfl, rfl⟩
    · rw [hready] at he
      rcases List.mem_cons.1 he with rfl | he
      · exact .inl rfl
      · exact .inr (.inr ⟨0, hservices ▸ Nat.one_pos, List.mem_singleton.1 he⟩)
  have hawaiting : Awaiting 0 begun.desk := by
    refine ⟨hservices ▸ Nat.one_pos, fun j hj hne => absurd (hone hj) hne, .inl rfl, ?_⟩
    rw [hready]
    rfl
  have hrun : Unhindered (begun.run 0) := ⟨rfl, rfl, rfl, rfl, fun _ => rfl⟩
  have hworker : (begun.run 0).worker = yielded 1 := rfl
  exact .resting rfl hrun rfl hdesk hawaiting rfl hworker

theorem begun_reachable : (Moment.resting begun).Reachable := by
  have hcalling := Moment.after_reachable world_reachable 29
  rw [calling_eq] at hcalling
  exact begun_eq ▸ Moment.after_reachable hcalling 8

def course : Course := .leftAlone (.resting begun) begun_reachable

theorem course_starving (n : Nat) : Starving (course.moment n) := by
  induction n with
  | zero => exact begun_starving
  | succ n ih => exact ih.follow

theorem course_calls : course.CallsReturn 0 := by
  intro n side service releases frame rest hthread hcall
  cases side with
  | main =>
    have hheld := (course_starving n).held
    rw [hthread] at hheld
    cases hheld
    cases hcall
  | worker => exact absurd (congrArg Thread.control hthread) ((course_starving n).awake service releases)

theorem course_size : 0 < (course.moment 0).size := Nat.one_pos

theorem course_main : InBody ((course.moment 0).thread 0 .main).stack := .inl rfl

theorem course_worker : InBody ((course.moment 0).thread 0 .worker).stack := .inr rfl

theorem course_not_over (n : Nat) : ¬((course.moment n).thread 0 .main).BodyOver :=
  Course.not_over_of_held (course_starving n).held

end Again

/-- The body of a program need not end: the main thread of this one stays at its last checkpoint for ever, though every call
of a collaborator is answered, and the clock stands still. -/
theorem program_body_starves :
    parseTokens Again.tokens none = .ok Again.program ∧ Again.course.CallsReturn 0 ∧
      (∀ n, (Again.course.moment n).desk.host.clock.seconds = 0) ∧
      InBody ((Again.course.moment 0).thread 0 .main).stack ∧
      ∀ n, ¬((Again.course.moment n).thread 0 .main).BodyOver :=
  ⟨rfl, Again.course_calls, fun n => (Again.course_starving n).now, Again.course_main, Again.course_not_over⟩

/-- In the course of the program above, the handler that is running ends, and the main thread is starved. -/
theorem bodies_end_starved :
    Again.course.CallsReturn 0 ∧ 0 < (Again.course.moment 0).size ∧
      (InBody ((Again.course.moment 0).thread 0 .worker).stack ∧
        ∃ n, ((Again.course.moment n).thread 0 .worker).BodyOver) ∧
      InBody ((Again.course.moment 0).thread 0 .main).stack ∧ ∃ n, Again.course.Starved 0 n := by
  refine ⟨Again.course_calls, Again.course_size, ⟨Again.course_worker, ?_⟩, Again.course_main, ?_⟩
  · rcases Course.bodies_end Again.course_calls Again.course_size Again.course_worker with ⟨n, -, hover⟩ | ⟨hside, -⟩
    · exact ⟨n, hover⟩
    · cases hside
  · rcases Course.bodies_end Again.course_calls Again.course_size Again.course_main with ⟨n, -, hover⟩ | ⟨-, n, -, hstarved⟩
    · exact absurd hover (Again.course_not_over n)
    · exact ⟨n, hstarved⟩

end DeskScript
