import DeskScript.Proofs.Host.Time
import DeskScript.Proofs.Machine.Solitary

set_option autoImplicit false

/-!
# The time of a run

While an ideal clock moves only by the sleeps of a run, the run stays within its budget: what it waits for is over when
the budget is, and it has leave to begin a statement before that only. Main statements: `Moment.Timely.onTime`,
`Moment.Timely.elapsed_le`, `Moment.Timely.elapsed_lt`.
-/

namespace DeskScript

/-- The time of a run is reckoned exactly. -/
structure Run.Ideal (r : Run) (now : Time) : Prop where
  now : ∃ e, now = .exact e
  began : ∃ q, r.startedAt = .exact (.finite q)

def Run.Affords (r : Run) (now ms : Time) : Prop := (r.elapsed now).extent.add ms.span ≤ r.budget.extent

theorem Desk.lt_of_sleep {d : Desk} {service : ServiceId} {ms : Time} (h : (d.service service).work = .sleep ms) :
    service < d.services.size := by
  rw [← Nat.not_le]
  intro habsent
  rw [service_absent habsent] at h
  cases h

namespace Run

variable {r : Run} {d : Desk} {now ms : Time}

theorem Ideal.elapsed (h : r.Ideal now) : r.elapsed now = .exact (r.elapsed now).extent := by
  obtain ⟨⟨e, rfl⟩, q, hbegan⟩ := h
  rw [Run.elapsed, hbegan]
  rfl

theorem Ideal.elapsed_le (h : r.Ideal now) : r.elapsed now ≤ r.budget ↔ (r.elapsed now).extent ≤ r.budget.extent := by
  rw [h.elapsed]
  exact Time.exact_le

theorem Ideal.le_elapsed (h : r.Ideal now) : r.elapsed now ≥ r.budget ↔ r.budget.extent ≤ (r.elapsed now).extent := by
  rw [h.elapsed]
  exact Time.le_exact

theorem Ideal.elapsed_lt (h : r.Ideal now) : r.elapsed now < r.budget ↔ ¬r.elapsed now ≥ r.budget := by
  rw [h.le_elapsed, h.elapsed]
  exact Time.exact_lt

theorem Ideal.after (h : r.Ideal now) (ms : Time) : r.Ideal (now.after ms) := by
  obtain ⟨⟨e, rfl⟩, hbegan⟩ := h
  exact ⟨⟨e.add ms.span, rfl⟩, hbegan⟩

theorem Ideal.elapsed_after (h : r.Ideal now) (ms : Time) :
    (r.elapsed (now.after ms)).extent = (r.elapsed now).extent.add ms.span := by
  obtain ⟨⟨e, rfl⟩, q, hbegan⟩ := h
  rw [Run.elapsed, Run.elapsed, hbegan]
  exact Extent.add_sub_finite e ms.span q

/-- What is left is what lies between the time gone by and the end. -/
theorem Ideal.remaining (h : r.Ideal now) (hwithin : r.elapsed now ≤ r.budget) :
    r.remaining now = .exact (r.budget.extent.sub (r.elapsed now).extent) := by
  have hleft := Extent.sub_positive (h.elapsed_le.1 hwithin)
  rw [Run.remaining, h.elapsed]
  exact congrArg Time.exact hleft

/-- A sleep for what is left is over when the budget is. -/
theorem Ideal.add_remaining (h : r.Ideal now) (hwithin : r.elapsed now ≤ r.budget) :
    (r.elapsed now).extent.add (r.remaining now).millis.span = r.budget.extent := by
  have hle := h.elapsed_le.1 hwithin
  rw [h.remaining hwithin, Time.span_millis, Extent.sub_positive hle]
  exact Extent.add_sub hle

/-- A script never asks to sleep for longer than the budget lasts. -/
theorem Naps.affords (h : r.Naps d ms) (hideal : r.Ideal d.host.clock.seconds)
    (hwithin : r.elapsed d.host.clock.seconds ≤ r.budget) : r.Affords d.host.clock.seconds ms := by
  obtain ⟨duration, asked, -, after, hwait⟩ := h
  have hleft := hideal.add_remaining hwithin
  unfold Affords
  unfold waitFor at hwait
  dsimp only at hwait
  split at hwait
  · cases hwait
    rw [hleft]
    exact Extent.le_refl _
  · rename_i hshort
    cases hwait
    rw [hideal.remaining hwithin] at hshort hleft
    rw [← hleft]
    exact Extent.add_le_add _ (Time.span_le (Extent.not_lt.1 hshort))

theorem SameTerms.elapsed {r' : Run} (h : r.SameTerms r') (now : Time) : r'.elapsed now = r.elapsed now := by
  rw [Run.elapsed, Run.elapsed, h.startedAt]

theorem SameTerms.budget {r' : Run} (h : r.SameTerms r') : r'.budget = r.budget := by
  rw [Run.budget, Run.budget, h.limits]

theorem SameTerms.affords {r' : Run} (h : r.SameTerms r') : r'.Affords now ms ↔ r.Affords now ms := by
  rw [Affords, Affords, h.elapsed, h.budget]

theorem SameTerms.ideal {r' : Run} (h : r.SameTerms r') : r'.Ideal now ↔ r.Ideal now := by
  constructor
  · rintro ⟨hnow, hbegan⟩
    exact ⟨hnow, h.startedAt ▸ hbegan⟩
  · rintro ⟨hnow, hbegan⟩
    exact ⟨hnow, h.startedAt.symm ▸ hbegan⟩

theorem elapsed_lt_of_objection (h : r.objection? now = none) : ¬r.elapsed now ≥ r.budget := by
  unfold objection? at h
  split at h
  · cases h
  · split at h
    · cases h
    · split at h
      · cases h
      · assumption

theorem beginDialog_clock (d : Desk) (service : ServiceId) (kind : DialogKind) (message default : String) :
    (d.beginDialog service kind message default).host.clock = d.host.clock := by
  unfold Desk.beginDialog
  split
  · rfl
  · rfl
  · dsimp only
    split <;> rfl
  · rfl

theorem tickCommand_clock (r : Run) (d : Desk) (service : ServiceId) (ticks : Nat) (answer : CommandAnswer)
    (args : Plain) :
    (r.tickCommand d service ticks answer args).2.host.clock = d.host.clock := by
  unfold tickCommand
  split
  · unfold answerCommand
    split
    · split <;> rfl
    · rfl
  · rfl

/-- A service moves the clock only by its first step, as far as it is to sleep. -/
theorem stepService_clock (r : Run) (d : Desk) (service : ServiceId) :
    (r.stepService d service).2.host.clock = d.host.clock ∨
      ∃ ms, (d.service service).work = .sleep ms ∧ (d.service service).stage = .fresh ∧
        (r.stepService d service).2.host.clock = d.host.clock.after ms ∧
        ((r.stepService d service).2.service service).stage = .slept := by
  simp only [stepService]
  split
  · exact .inl rfl
  · exact .inl rfl
  · rename_i hstage
    generalize hwork : (d.service service).work = work
    cases work with
    | dialog kind message default => exact .inl (beginDialog_clock d service kind message default)
    | command name args => exact .inl (tickCommand_clock r _ service _ _ _)
    | request q => exact .inl (tickCommand_clock r _ service _ _ _)
    | idle =>
      refine .inl ?_
      simp only [beginService]
      split <;> rfl
    | join =>
      refine .inl ?_
      simp only [beginService]
      split <;> rfl
    | sleep ms =>
      simp only [beginService, Desk.beginSleep]
      split
      · refine .inr ⟨ms, rfl, hstage, rfl, ?_⟩
        exact congrArg Service.stage ((d.service_modify service service _).trans (if_pos ⟨rfl, Desk.lt_of_sleep hwork⟩))
      · refine .inl ?_
        split <;> rfl
  · exact .inl (tickCommand_clock r d service _ _ _)
  · exact .inl rfl
  · exact .inl rfl
  · exact .inl rfl

end Run

namespace Moment

variable {l m n o : Moment} {id : RunId}

def elapsed (id : RunId) (m : Moment) : Time := (m.run id).elapsed m.desk.host.clock.seconds

/-- The clock stands still unless a service of the run makes a step. -/
def KeepsTime (id : RunId) (m n : Moment) : Prop :=
  n.desk.host.clock = m.desk.host.clock ∨ ∃ service, Takes (.service service) m n ∧ (m.desk.service service).run = id

inductive Timely (id : RunId) (m : Moment) : Moment → Prop
  | refl : Timely id m m
  | move {n o : Moment} (h : Timely id m n) (hn : Move n o) (hkeeps : KeepsTime id n o) : Timely id m o

/-- What keeps a run within its budget. -/
structure Within (id : RunId) (m : Moment) : Prop where
  elapsed : m.elapsed id ≤ (m.run id).budget
  granted : (m.thread id .main).control.isGranted = true → m.elapsed id < (m.run id).budget
  asks : ∀ ms, (m.thread id .main).control = .request (.sleep ms) → (m.run id).Affords m.desk.host.clock.seconds ms
  sleeps : ∀ service ms, (m.desk.service service).run = id → (m.desk.service service).work = .sleep ms →
    (m.desk.service service).stage = .fresh → (m.run id).Affords m.desk.host.clock.seconds ms

structure Sleeps (id : RunId) (service : ServiceId) (ms : Time) (m n : Moment) : Prop where
  owner : (m.desk.service service).run = id
  work : (m.desk.service service).work = .sleep ms
  fresh : (m.desk.service service).stage = .fresh
  takes : Takes (.service service) m n
  clock : n.desk.host.clock = m.desk.host.clock.after ms
  slept : (n.desk.service service).stage = .slept
  threads : ∀ side, n.thread id side = m.thread id side
  rests : ∀ side, (m.thread id side).control.atRest = true

theorem Takes.served {service : ServiceId} (h : Takes (.service service) m n) :
    ∃ (r : Run) (ready : Queue Ready), n.desk = (r.stepService { m.desk with ready } service).2 := by
  cases h with
  | @entry w _ ready hpop hentry => exact ⟨w.run (w.desk.service service).run, ready, rfl⟩

theorem Takes.size {service : ServiceId} (h : Takes (.service service) m n) :
    n.desk.services.size = m.desk.services.size := by
  obtain ⟨r, ready, hdesk⟩ := h.served
  rw [hdesk]
  exact (r.stepService_serves { m.desk with ready } service).size

/-- A service has its turn while the threads are at rest. -/
theorem Takes.apart {service : ServiceId} (h : Takes (.service service) m n) (hm : Possible m) (hid : id < m.size)
    (side : Side) : n.thread id side = m.thread id side ∧ (m.thread id side).control.atRest = true := by
  cases h with
  | @entry w _ ready hpop hentry =>
    exact ⟨(World.advance_quiet (hm.sound.dequeued ready) hid hentry).thread side, (hm.sound.runs id).rests side⟩

theorem KeepsTime.cases (h : KeepsTime id m n) (hm : Possible m) (hid : id < m.size) :
    n.desk.host.clock = m.desk.host.clock ∨ ∃ service ms, Sleeps id service ms m n := by
  rcases h with hclock | ⟨service, htakes, howner⟩
  · exact .inl hclock
  obtain ⟨r, ready, hdesk⟩ := htakes.served
  rcases r.stepService_clock { m.desk with ready } service with hclock | ⟨ms, hwork, hfresh, hclock, hslept⟩
  · exact .inl (hdesk ▸ hclock)
  · exact .inr ⟨service, ms, howner, hwork, hfresh, htakes, hdesk ▸ hclock, hdesk ▸ hslept,
      fun side => (htakes.apart hm hid side).1, fun side => (htakes.apart hm hid side).2⟩

/-- A service that has not begun had not begun before. -/
theorem Move.fresh_before (hn : Move m n) (hm : Possible m) {service : ServiceId} (hsize : service < m.desk.services.size)
    (hfresh : (n.desk.service service).stage = .fresh) : (m.desk.service service).stage = .fresh := by
  obtain ⟨ready, honward | ⟨other, hdesk⟩⟩ := hn.desk hm
  · cases honward.stage service (Nat.lt_of_lt_of_le hsize honward.size) with
    | same _ hstage => exact hstage.symm.trans hfresh
    | woken _ _ r hwoken =>
      rw [hwoken] at hfresh
      cases hfresh
    | opened hnew => exact absurd hsize (Nat.not_lt.2 hnew)
  · have hserves := (m.run (m.desk.service other).run).stepService_serves { m.desk with ready } other
    rw [hdesk] at hfresh
    by_cases hsame : service = other
    · subst hsame
      cases hserves.outcome hsize with
      | same hstage => exact hstage.symm.trans hfresh
      | done result hstage | parked _ hstage =>
        rw [hstage] at hfresh
        cases hfresh
      | again hcounting =>
        rw [hfresh] at hcounting
        cases hcounting
    · rw [hserves.others service hsame] at hfresh
      exact hfresh

theorem fresh_open {service : ServiceId} (hsize : service < m.desk.services.size)
    (howner : (m.desk.service service).run = id) (hside : (m.desk.service service).side = .main)
    (hfresh : (m.desk.service service).stage = .fresh) : Open id service m := by
  refine ⟨hsize, ?_⟩
  rw [Service.summons, howner, hside, hfresh]
  simp [Stage.isDone]

theorem Move.elapsed_eq (hn : Move m n) (hm : Possible m) (hid : id < m.size)
    (hclock : n.desk.host.clock = m.desk.host.clock) : n.elapsed id = m.elapsed id := by
  rw [Moment.elapsed, hclock, (hn.terms hm hid).elapsed]
  rfl

/-- While the clock stands still, a run only comes to sleep for as long as it can afford. -/
theorem Within.still (h : Within id m) (hm : Possible m) (hid : id < m.size) (hless : (m.run id).Handlerless)
    (hideal : (m.run id).Ideal m.desk.host.clock.seconds) (hn : Move m n)
    (hclock : n.desk.host.clock = m.desk.host.clock) : Within id n := by
  have hterms := hn.terms hm hid
  have helapsed := hn.elapsed_eq hm hid hclock
  have hsolitary := hm.solitary hid hless
  have hmain : n.thread id .main = m.thread id .main ∨ ∃ ready : Queue Ready,
      n.thread id .main = (Run.step .main (m.run id) { m.desk with ready } (m.thread id .main)).thread := by
    cases hn.share hm.sound hid with
    | step side ready hacts hat hother =>
      cases side with
      | main => exact .inr ⟨ready, hat.thread⟩
      | worker => exact .inl hother
    | interrupted _ _ _ _ hother => exact .inl hother
    | rested _ _ _ _ _ hthreads | served _ _ _ _ _ hthreads | cancelled _ _ _ hthreads | aside _ hthreads =>
      exact .inl (hthreads .main)
  have hfits := hm.sound.thread id .main
  have hsided := hm.attended.sided hid .main
  refine ⟨?_, fun hgranted => ?_, fun ms hasks => ?_, fun service ms howner hwork hfresh => ?_⟩
  · rw [helapsed, hterms.budget]
    exact h.elapsed
  · rw [helapsed, hterms.budget]
    rcases hmain with hsame | ⟨ready, hthread⟩
    · exact h.granted (hsame ▸ hgranted)
    rw [hthread] at hgranted
    rcases Run.step_granted hfits hsided hsolitary.unheld hgranted with hgranted | hnone
    · exact h.granted hgranted
    · exact hideal.elapsed_lt.2 (Run.elapsed_lt_of_objection hnone)
  · rw [hterms.affords, hclock]
    rcases hmain with hsame | ⟨ready, hthread⟩
    · exact h.asks ms (hsame ▸ hasks)
    rw [hthread] at hasks
    exact Run.Naps.affords (d := { m.desk with ready }) (Run.step_naps hfits hsided hasks) hideal h.elapsed
  · rw [hterms.affords, hclock]
    have hsize : service < n.desk.services.size := Desk.lt_of_sleep hwork
    have hold (hsize : service < m.desk.services.size) : (m.run id).Affords m.desk.host.clock.seconds ms := by
      have hlater := (hn.service hm hsize).2
      exact h.sleeps service ms (hlater.run.symm.trans howner) (hlater.work.symm.trans hwork)
        (hn.fresh_before hm hsize hfresh)
    by_cases hbefore : service < m.desk.services.size
    · exact hold hbefore
    rcases hn.opened hm with hsame | ⟨other, side, work, hacts, hasks, hnext, hrun, hside, hnew⟩
    · exact absurd (hsame ▸ hsize) hbefore
    obtain rfl : service = m.desk.services.size :=
      Nat.le_antisymm (Nat.le_of_lt_succ (Nat.lt_of_lt_of_eq hsize hnext)) (Nat.le_of_not_lt hbefore)
    obtain rfl : other = id := hrun.symm.trans howner
    obtain rfl : work = .sleep ms := hnew.symm.trans hwork
    have hnless := (hn.handlerless hm hid).2 hless
    obtain rfl : side = .main := hside.symm.trans ((hm.move hn).services_main hsize (howner ▸ hnless))
    exact h.asks ms hasks

theorem Sleeps.elapsed {service : ServiceId} {ms : Time} (h : Sleeps id service ms m n) (hm : Possible m)
    (hid : id < m.size) (hn : Move m n) (hideal : (m.run id).Ideal m.desk.host.clock.seconds) :
    (n.elapsed id).extent = (m.elapsed id).extent.add ms.span := by
  have hclock : n.desk.host.clock.seconds = m.desk.host.clock.seconds.after ms := congrArg Clock.seconds h.clock
  rw [Moment.elapsed, (hn.terms hm hid).elapsed, hclock]
  exact hideal.elapsed_after ms

/-- While only the run moves the clock, its time is reckoned exactly. -/
theorem KeepsTime.ideal (h : KeepsTime id m n) (hm : Possible m) (hid : id < m.size) (hn : Move m n)
    (hideal : (m.run id).Ideal m.desk.host.clock.seconds) : (n.run id).Ideal n.desk.host.clock.seconds := by
  rw [(hn.terms hm hid).ideal]
  rcases h.cases hm hid with hclock | ⟨service, ms, hsleeps⟩
  · rw [hclock]
    exact hideal
  · rw [hsleeps.clock]
    exact hideal.after ms

/-- When a service of the run has slept, the budget is used up at most, and the run has not asked for more. -/
theorem Within.slept (h : Within id m) (hm : Possible m) (hid : id < m.size) (hless : (m.run id).Handlerless)
    (hideal : (m.run id).Ideal m.desk.host.clock.seconds) (hnext : (n.run id).Ideal n.desk.host.clock.seconds)
    (hn : Move m n) {service : ServiceId} {ms : Time} (hsleeps : Sleeps id service ms m n) : Within id n := by
  have hrests := hsleeps.threads .main ▸ hsleeps.rests .main
  refine ⟨?_, fun hgranted => ?_, fun ms hasks => ?_, fun other ms' howner hwork hfresh => ?_⟩
  · refine hnext.elapsed_le.2 ?_
    change (n.elapsed id).extent ≤ _
    rw [hsleeps.elapsed hm hid hn hideal, (hn.terms hm hid).budget]
    exact h.sleeps service ms hsleeps.owner hsleeps.work hsleeps.fresh
  · rw [Control.not_rest_of_granted hgranted] at hrests
    cases hrests
  · rw [hasks] at hrests
    cases hrests
  · -- it would have been open together with the one that has slept
    have hsize : other < m.desk.services.size := Nat.lt_of_lt_of_eq (Desk.lt_of_sleep hwork) hsleeps.takes.size
    have hlater := (hn.service hm hsize).2
    have howner := hlater.run.symm.trans howner
    have hother := fresh_open hsize howner (hm.services_main hsize (howner ▸ hless)) (hn.fresh_before hm hsize hfresh)
    have hopen := fresh_open (Desk.lt_of_sleep hsleeps.work) hsleeps.owner
      (hm.services_main (Desk.lt_of_sleep hsleeps.work) (hsleeps.owner ▸ hless)) hsleeps.fresh
    rw [hopen.unique hother hm hid, hsleeps.slept] at hfresh
    cases hfresh

structure OnTime (id : RunId) (m : Moment) : Prop where
  possible : Possible m
  size : id < m.size
  handlerless : (m.run id).Handlerless
  stepped : m.desk.host.clock.mode = .stepped
  ideal : (m.run id).Ideal m.desk.host.clock.seconds
  within : Within id m

theorem OnTime.move (h : OnTime id m) (hn : Move m n) (hkeeps : KeepsTime id m n) : OnTime id n := by
  have hm := h.possible
  have hideal := hkeeps.ideal hm h.size hn h.ideal
  refine ⟨hm.move hn, Nat.lt_of_lt_of_le h.size hn.size, (hn.handlerless hm h.size).2 h.handlerless, ?_, hideal, ?_⟩
  · rcases hkeeps.cases hm h.size with hclock | ⟨service, ms, hsleeps⟩
    · rw [hclock]
      exact h.stepped
    · rw [hsleeps.clock]
      exact h.stepped
  · rcases hkeeps.cases hm h.size with hclock | ⟨service, ms, hsleeps⟩
    · exact h.within.still hm h.size h.handlerless h.ideal hn hclock
    · exact h.within.slept hm h.size h.handlerless h.ideal hideal hn hsleeps

/-- A run without handlers is launched, by an ideal clock that moves by sleeps and with a budget that is not negative. -/
structure Starts (id : RunId) (l m : Moment) : Prop where
  possible : Possible l
  launch : Move l m
  new : l.size ≤ id
  size : id < m.size
  started : (m.run id).startedAt = m.desk.host.clock.seconds
  stepped : m.desk.host.clock.mode = .stepped
  ideal : ∃ q, m.desk.host.clock.seconds = .exact (.finite q)
  handlerless : (m.run id).Handlerless
  positive : 0 ≤ (m.run id).limits.timeoutSeconds

theorem Starts.within (h : Starts id l m) : Within id m := by
  have hl := h.possible
  obtain ⟨-, hthreads⟩ := h.launch.unbegun h.new h.size
  refine ⟨?_, fun hgranted => ?_, fun ms hasks => ?_, fun service ms howner hwork hfresh => ?_⟩
  · obtain ⟨q, hq⟩ := h.ideal
    have hnone : m.elapsed id = .exact (.finite 0) := by
      rw [Moment.elapsed, Run.elapsed, h.started, hq]
      exact congrArg Time.exact (Extent.finite_sub_self q)
    rw [hnone, Time.exact_le]
    exact Extent.zero_le_ofFloat h.positive
  · rw [hthreads] at hgranted
    cases hgranted
  · rw [hthreads] at hasks
    cases hasks
  · -- the owner of a service was there before it
    have hsize := Desk.lt_of_sleep hwork
    refine absurd ?_ (Nat.not_lt.2 h.new)
    by_cases hbefore : service < l.desk.services.size
    · rw [← howner, (h.launch.service hl hbefore).2.run]
      exact hl.orderly.desk.owners service hbefore
    rcases h.launch.opened hl with hsame | ⟨other, side, work, hacts, -, hnext, hrun, -⟩
    · exact absurd (hsame ▸ hsize) hbefore
    · obtain rfl : service = l.desk.services.size :=
        Nat.le_antisymm (Nat.le_of_lt_succ (Nat.lt_of_lt_of_eq hsize hnext)) (Nat.le_of_not_lt hbefore)
      rw [← howner, hrun]
      exact hl.orderly.acting hacts

theorem Starts.onTime (h : Starts id l m) : OnTime id m := by
  obtain ⟨q, hq⟩ := h.ideal
  exact ⟨h.possible.move h.launch, h.size, h.handlerless, h.stepped, ⟨⟨_, hq⟩, q, h.started.trans hq⟩, h.within⟩

theorem Timely.moves (h : Timely id m n) : Moves m n := by
  induction h with
  | refl => exact .refl m
  | move _ hn _ ih => exact .move ih hn

theorem Timely.onTime (h : Timely id m n) (hm : OnTime id m) : OnTime id n := by
  induction h with
  | refl => exact hm
  | move _ hn hkeeps ih => exact ih.move hn hkeeps

theorem Timely.budget (h : Timely id m n) (hstarts : Starts id l m) : (n.run id).budget = (m.run id).budget :=
  (h.moves.terms (hstarts.possible.move hstarts.launch) hstarts.size).budget

theorem Timely.elapsed_le (h : Timely id m n) (hstarts : Starts id l m) : n.elapsed id ≤ (m.run id).budget :=
  h.budget hstarts ▸ (h.onTime hstarts.onTime).within.elapsed

/-- A statement is begun only while some of the budget is left. -/
theorem Timely.elapsed_lt (h : Timely id m n) (hstarts : Starts id l m) {side : Side} {s : Stmt} {scope : ScopeId}
    (hperforms : (n.thread id side).control = .perform s scope) : n.elapsed id < (m.run id).budget := by
  have hn := h.onTime hstarts.onTime
  cases side with
  | main => exact h.budget hstarts ▸ hn.within.granted (by rw [hperforms]; rfl)
  | worker =>
    -- a worker without handlers has nothing to begin
    have hfits := hn.possible.sound.thread id .worker
    rw [hn.possible.worker_control hn.size hn.handlerless, hperforms] at hfits
    exact hfits.1.elim

end Moment

end DeskScript
