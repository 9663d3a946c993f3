import DeskScript.Proofs.Machine.Moves

set_option autoImplicit false

/-!
# Bodies end

In a world that goes on, whatever is ready gets its turn, and so every handler comes to its end, and the main thread too:
unless handlers follow each other without end, and it finds one of them busy whenever it looks.
Main statement: `Course.bodies_end`.
-/

namespace DeskScript

/-- A world that goes on without end, from a reachable moment. Whenever it rests and something is ready, the first entry
of the queue is taken some time. -/
structure Course where
  moment : Nat → Moment
  reachable : (moment 0).Reachable
  next : ∀ n, Moment.Next (moment n) (moment (n + 1))
  fair : ∀ n w, moment n = .resting w → w.desk.ready.toList ≠ [] →
    ∃ i ≥ n, ∃ entry, Moment.Takes entry (moment i) (moment (i + 1))

def Frame.isCall : Frame → Bool
  | .collaborator .. | .requested => true
  | _ => false

namespace Course

open Moment

variable (c : Course)

theorem reachable_moment (n : Nat) : (c.moment n).Reachable := by
  induction n with
  | zero => exact c.reachable
  | succ n ih => exact ih.next (c.next n)

theorem sound (n : Nat) : (c.moment n).Sound := (c.reachable_moment n).sound

theorem attended (n : Nat) : (c.moment n).Attended := (c.reachable_moment n).attended

def ready (n : Nat) : List Ready := (c.moment n).desk.ready.toList

def Taking (n : Nat) : Prop := ∃ entry, Takes entry (c.moment n) (c.moment (n + 1))

variable {c : Course}

theorem rests_within {side : Side} {s : Step} (h : s.Rests side) {n : Nat} {w : World} {id : RunId}
    (hmoment : c.moment n = .within w id side s) : ∃ i ≥ n, ∃ w', c.moment i = .resting w' := by
  induction h generalizing n with
  | @now s hpace =>
    have hnext := c.next n
    rw [hmoment] at hnext
    generalize hlater : c.moment (n + 1) = later at hnext
    cases hnext with
    | step hgo => exact absurd hgo hpace
    | rest _ => exact ⟨n + 1, Nat.le_succ n, _, hlater⟩
  | @later s _ ih =>
    have hnext := c.next n
    rw [hmoment] at hnext
    generalize hlater : c.moment (n + 1) = later at hnext
    cases hnext with
    | step _ =>
      obtain ⟨i, hi, hrest⟩ := ih hlater
      exact ⟨i, Nat.le_of_succ_le hi, hrest⟩
    | rest _ => exact ⟨n + 1, Nat.le_succ n, _, hlater⟩

theorem rests (c : Course) (n : Nat) : ∃ i ≥ n, ∃ w, c.moment i = .resting w := by
  cases hmoment : c.moment n with
  | resting w => exact ⟨n, Nat.le_refl n, w, hmoment⟩
  | within w id side s =>
    have hsound := c.sound n
    rw [hmoment] at hsound
    obtain ⟨-, hs, -, -⟩ := hsound
    exact rests_within (Step.rests_of_sound side hs) hmoment

theorem ready_grows {n : Nat} (h : ¬c.Taking n) : c.ready n <+: c.ready (n + 1) := by
  rcases (c.next n).takes_or_onward (c.sound n) (c.attended n) with htakes | honward
  · exact absurd htakes h
  · exact honward.ready

/-- Before the next entry is taken, the queue only grows. -/
theorem taking_or_grown (c : Course) (n k : Nat) :
    (∃ i ≥ n, c.Taking i ∧ c.ready n <+: c.ready i) ∨ c.ready n <+: c.ready (n + k) := by
  induction k with
  | zero => exact .inr (List.prefix_refl _)
  | succ k ih =>
    rcases ih with htaking | hgrown
    · exact .inl htaking
    · by_cases htaking : c.Taking (n + k)
      · exact .inl ⟨n + k, Nat.le_add_right n k, htaking, hgrown⟩
      · exact .inr (hgrown.trans (ready_grows htaking))

theorem taking {n : Nat} (h : c.ready n ≠ []) : ∃ i ≥ n, c.Taking i ∧ c.ready n <+: c.ready i := by
  obtain ⟨i, hi, w, hrest⟩ := c.rests n
  obtain ⟨k, rfl⟩ := Nat.exists_eq_add_of_le hi
  rcases c.taking_or_grown n k with htaking | hgrown
  · exact htaking
  · have hready : w.desk.ready.toList ≠ [] := by
      intro hempty
      rw [ready, ready, hrest] at hgrown
      change _ <+: w.desk.ready.toList at hgrown
      rw [hempty] at hgrown
      exact h (List.prefix_nil.1 hgrown)
    obtain ⟨j, hj, htaking⟩ := c.fair (n + k) w hrest hready
    obtain ⟨k', rfl⟩ := Nat.exists_eq_add_of_le (Nat.le_trans hi hj)
    rcases c.taking_or_grown n k' with hfirst | hgrown
    · exact hfirst
    · exact ⟨n + k', Nat.le_add_right n k', htaking, hgrown⟩

theorem taken {entry : Ready} {n : Nat} (h : entry ∈ c.ready n) :
    ∃ i ≥ n, Takes entry (c.moment i) (c.moment (i + 1)) := by
  obtain ⟨before, after, hready⟩ := List.append_of_mem h
  -- The induction is on the entries that are before it; each entry that is taken is one of them, or it is the one.
  induction before generalizing n after with
  | nil =>
    obtain ⟨i, hi, ⟨first, htakes⟩, hgrown⟩ := taking (List.ne_nil_of_mem h)
    obtain ⟨rest, hfirst, -⟩ := htakes.ready (c.sound i) (c.attended i)
    rw [hready, ready, hfirst, List.nil_append, List.cons_prefix_cons] at hgrown
    obtain ⟨rfl, -⟩ := hgrown
    exact ⟨i, hi, htakes⟩
  | cons e before ih =>
    obtain ⟨i, hi, ⟨first, htakes⟩, hgrown⟩ := taking (List.ne_nil_of_mem h)
    obtain ⟨rest, hfirst, hrest⟩ := htakes.ready (c.sound i) (c.attended i)
    rw [hready, ready, hfirst, List.cons_append, List.cons_prefix_cons] at hgrown
    obtain ⟨more, hmore⟩ := hgrown.2.trans hrest
    rw [List.append_assoc] at hmore
    have hmem : entry ∈ c.ready (i + 1) := by
      rw [ready, ← hmore]
      simp
    obtain ⟨j, hj, hlater⟩ := ih hmem _ hmore.symm
    exact ⟨j, Nat.le_trans hi (Nat.le_of_succ_le hj), hlater⟩

section

variable {id : RunId} {side : Side} {n i : Nat}

def Moves (c : Course) (id : RunId) (side : Side) (n : Nat) : Prop :=
  ((c.moment n).thread id side).Moved ((c.moment n).run id).limits side ((c.moment (n + 1)).thread id side)

/-- The thread makes a move some time, and is until then as it is. -/
def Stirs (c : Course) (id : RunId) (side : Side) (n : Nat) : Prop :=
  ∃ i ≥ n, (c.moment i).thread id side = (c.moment n).thread id side ∧ c.Moves id side i

theorem size_mono (hid : id < (c.moment n).size) (hi : n ≤ i) : id < (c.moment i).size := by
  induction hi with
  | refl => exact hid
  | step _ ih => exact Nat.lt_of_lt_of_le ih (c.next _).size

theorem limits_eq (hid : id < (c.moment n).size) (hi : n ≤ i) :
    ((c.moment i).run id).limits = ((c.moment n).run id).limits := by
  induction hi with
  | refl => rfl
  | step hle ih => exact ((c.next _).terms (c.sound _) (size_mono hid hle)).limits.trans ih

theorem stirs_or_same (hid : id < (c.moment n).size) (hbody : InBody ((c.moment n).thread id side).stack) (hi : n ≤ i) :
    c.Stirs id side n ∨ (c.moment i).thread id side = (c.moment n).thread id side := by
  induction hi with
  | refl => exact .inr rfl
  | @step i hle ih =>
    rcases ih with hstirs | hsame
    · exact .inl hstirs
    · rcases (c.next i).thread_cases (c.sound i) (size_mono hid hle) (hsame ▸ hbody) with hstill | hmoved
      · exact .inr (hstill.trans hsame)
      · exact .inl ⟨i, hle, hsame, hmoved⟩

theorem Stirs.before (h : c.Stirs id side i) (hi : n ≤ i)
    (hsame : (c.moment i).thread id side = (c.moment n).thread id side) : c.Stirs id side n := by
  obtain ⟨j, hj, hthread, hmoves⟩ := h
  exact ⟨j, Nat.le_trans hi hj, hthread.trans hsame, hmoves⟩

theorem stirs_of_inner (h : ((c.moment n).thread id side).control.atRest = false) : c.Stirs id side n := by
  obtain ⟨-, hthread, hbears⟩ := (c.next n).inner (c.sound n) h
  exact ⟨n, Nat.le_refl n, rfl, .step _ _ hbears hthread⟩

theorem stirs_of_ready (hid : id < (c.moment n).size) (hbody : InBody ((c.moment n).thread id side).stack)
    (h : .thread id side ∈ c.ready n) : c.Stirs id side n := by
  obtain ⟨i, hi, htakes⟩ := taken h
  rcases stirs_or_same hid hbody hi with hstirs | hsame
  · exact hstirs
  · exact ⟨i, hi, hsame, htakes.moved (c.sound i) (hsame ▸ hbody)⟩

def Returns (c : Course) (service : ServiceId) (n : Nat) : Prop :=
  ∃ i ≥ n, ∃ result, ((c.moment i).desk.service service).stage = .done result

variable {service : ServiceId}

/-- Whatever a thread of the run calls a collaborator for, it is answered some time. -/
def CallsReturn (c : Course) (id : RunId) : Prop :=
  ∀ n side service releases frame rest, (c.moment n).thread id side = ⟨.resume service releases, frame :: rest⟩ →
    frame.isCall = true → c.Returns service n

theorem Returns.before (h : c.Returns service i) (hi : n ≤ i) : c.Returns service n := by
  obtain ⟨j, hj, hdone⟩ := h
  exact ⟨j, Nat.le_trans hi hj, hdone⟩

theorem serving (c : Course) (hsize : service < (c.moment n).desk.services.size) :
    Serving service (c.moment n) (c.moment (n + 1)) :=
  (c.next n).serving (c.sound n) (c.attended n) hsize

theorem service_size (hsize : service < (c.moment n).desk.services.size) (hi : n ≤ i) :
    service < (c.moment i).desk.services.size := by
  induction hi with
  | refl => exact hsize
  | step _ ih => exact (c.serving ih).size

theorem work_eq (hsize : service < (c.moment n).desk.services.size) (hi : n ≤ i) :
    ((c.moment i).desk.service service).work = ((c.moment n).desk.service service).work := by
  induction hi with
  | refl => rfl
  | step hle ih => exact (c.serving (service_size hsize hle)).work.trans ih

theorem done_stays (hsize : service < (c.moment n).desk.services.size)
    (hdone : ∃ result, ((c.moment n).desk.service service).stage = .done result) (hi : n ≤ i) :
    ∃ result, ((c.moment i).desk.service service).stage = .done result := by
  induction hi with
  | refl => exact hdone
  | @step i hle ih =>
    obtain ⟨result, hstage⟩ := ih
    have hsize' := service_size hsize hle
    rcases (c.serving hsize').stage with hsame | ⟨hparked, -⟩ | htakes
    · exact ⟨result, hsame.trans hstage⟩
    · rw [hstage] at hparked
      cases hparked
    · obtain ⟨r', houtcome⟩ := htakes.outcome hsize'
      cases houtcome with
      | same hsame _ => exact ⟨result, hsame.trans hstage⟩
      | done result' hdone _ => exact ⟨result', hdone⟩
      | parked hfresh _ _ => rw [hstage] at hfresh; cases hfresh
      | again _ _ hbefore =>
        rw [hstage] at hbefore
        rcases hbefore with ⟨hfresh, -⟩ | hcounting
        · cases hfresh
        · cases hcounting

/-- A service that is in the queue stays as it is until its turn. -/
theorem service_taken (hsize : service < (c.moment n).desk.services.size)
    (hactive : ((c.moment n).desk.service service).stage.isActive = true) :
    ∃ i ≥ n, ((c.moment i).desk.service service).stage = ((c.moment n).desk.service service).stage ∧
      Takes (.service service) (c.moment i) (c.moment (i + 1)) := by
  obtain ⟨i, hi, htakes⟩ := taken ((c.attended n).atDesk.active service hsize hactive)
  have hbefore (j : Nat) (hj : n ≤ j) :
      (∃ i ≥ n, ((c.moment i).desk.service service).stage = ((c.moment n).desk.service service).stage ∧
        Takes (.service service) (c.moment i) (c.moment (i + 1))) ∨
      ((c.moment j).desk.service service).stage = ((c.moment n).desk.service service).stage := by
    induction hj with
    | refl => exact .inr rfl
    | @step j hle ih =>
      rcases ih with hfound | hstage
      · exact .inl hfound
      · rcases (c.serving (service_size hsize hle)).stage with hsame | ⟨hparked, -⟩ | htakes
        · exact .inr (hsame.trans hstage)
        · rw [← hstage, hparked] at hactive
          cases hactive
        · exact .inl ⟨j, hle, hstage, htakes⟩
  rcases hbefore i hi with hfound | hstage
  · exact hfound
  · exact ⟨i, hi, hstage, htakes⟩

section

variable (hsize : service < (c.moment n).desk.services.size) (hwork : ((c.moment n).desk.service service).work = .idle)

include hsize hwork

/-- The turn of a service that waits for idleness: it is done, or it waits. -/
theorem idle_outcome (htakes : Takes (.service service) (c.moment n) (c.moment (n + 1))) :
    (∃ result, ((c.moment (n + 1)).desk.service service).stage = .done result) ∨
      ((c.moment (n + 1)).desk.service service).stage = .parked ∧
        (((c.moment n).desk.service service).stage = .fresh ∨ ((c.moment n).desk.service service).stage = .parked) := by
  obtain ⟨r', houtcome⟩ := htakes.outcome hsize
  cases houtcome with
  | same hstage hwaits =>
    rcases hwaits with hparked | ⟨result, hdone⟩
    · exact .inr ⟨hstage.trans hparked, .inr hparked⟩
    · exact .inl ⟨result, hstage.trans hdone⟩
  | done result hdone _ => exact .inl ⟨result, hdone⟩
  | parked hfresh hparked _ => exact .inr ⟨hparked, .inl hfresh⟩
  | again _ _ hbefore =>
    rcases hbefore with ⟨-, hother⟩ | hcounting
    · exact absurd hwork hother
    · exact absurd (hcounting.symm.trans ((c.attended n).atDesk.idle service hsize hwork)) nofun

theorem idle_returns_of_woken {r : Except Fault Plain} (hwoken : ((c.moment n).desk.service service).stage = .woken r) :
    c.Returns service n := by
  obtain ⟨i, hi, hstage, htakes⟩ := service_taken hsize (by rw [hwoken]; rfl)
  rw [hwoken] at hstage
  rcases idle_outcome (service_size hsize hi) ((work_eq hsize hi).trans hwork) htakes with hdone | ⟨-, hbefore⟩
  · exact ⟨i + 1, Nat.le_succ_of_le hi, hdone⟩
  · rw [hstage] at hbefore
    rcases hbefore with hbefore | hbefore <;> cases hbefore

theorem idle_returns_of_left (hparked : ((c.moment n).desk.service service).stage = .parked) (hi : n ≤ i)
    (hleft : ((c.moment i).desk.service service).stage ≠ .parked) : c.Returns service n := by
  have hbefore (j : Nat) (hj : n ≤ j) :
      c.Returns service n ∨ ((c.moment j).desk.service service).stage = .parked := by
    induction hj with
    | refl => exact .inr hparked
    | @step j hle ih =>
      rcases ih with hreturns | hstage
      · exact .inl hreturns
      · have hsize' := service_size hsize hle
        have hwork' := (work_eq hsize hle).trans hwork
        rcases (c.serving hsize').stage with hsame | ⟨-, r, hwoken⟩ | htakes
        · exact .inr (hsame.trans hstage)
        · have hnext := Nat.le_succ_of_le hle
          have hreturns := idle_returns_of_woken (service_size hsize hnext) ((work_eq hsize hnext).trans hwork) hwoken
          exact .inl (hreturns.before hnext)
        · rcases idle_outcome hsize' hwork' htakes with hdone | ⟨hwaits, -⟩
          · exact .inl ⟨j + 1, Nat.le_succ_of_le hle, hdone⟩
          · exact .inr hwaits
  exact (hbefore i hi).resolve_right hleft

/-- The service returns if it does so whenever it waits. -/
theorem idle_returns_or_parked :
    c.Returns service n ∨ ∃ i ≥ n, ((c.moment i).desk.service service).stage = .parked := by
  cases hstage : ((c.moment n).desk.service service).stage with
  | fresh =>
    obtain ⟨i, hi, -, htakes⟩ := service_taken hsize (by rw [hstage]; rfl)
    rcases idle_outcome (service_size hsize hi) ((work_eq hsize hi).trans hwork) htakes with hdone | ⟨hparked, -⟩
    · exact .inl ⟨i + 1, Nat.le_succ_of_le hi, hdone⟩
    · exact .inr ⟨i + 1, Nat.le_succ_of_le hi, hparked⟩
  | ticking | slept =>
    have hcounting := (c.attended n).atDesk.idle service hsize hwork
    rw [hstage] at hcounting
    cases hcounting
  | parked => exact .inr ⟨n, Nat.le_refl n, hstage⟩
  | woken r => exact .inl (idle_returns_of_woken hsize hwork hstage)
  | done result => exact .inl ⟨n, Nat.le_refl n, result, hstage⟩

end

theorem waits {w : World} (hrest : c.moment n = .resting w) (hid : id < (c.moment n).size) :
    ((c.moment n).thread id side).Waits (c.moment n).desk id side := by
  have hattended := c.attended n
  rw [hrest] at hattended hid ⊢
  exact (hattended.runs id hid).waits side

theorem stirs_of_done {releases : Bool} (hid : id < (c.moment n).size)
    (hbody : InBody ((c.moment n).thread id side).stack) (hsize : service < (c.moment n).desk.services.size)
    (hcontrol : ((c.moment n).thread id side).control = .resume service releases)
    (hdone : ∃ result, ((c.moment n).desk.service service).stage = .done result) : c.Stirs id side n := by
  obtain ⟨i, hi, w, hrest⟩ := c.rests n
  rcases stirs_or_same hid hbody hi with hstirs | hsame
  · exact hstirs
  · obtain ⟨result, hresult⟩ := done_stays hsize hdone hi
    rw [← hsame] at hbody hcontrol
    obtain ⟨-, -, -, -, hready⟩ := (waits hrest (size_mono hid hi)).resume service releases hcontrol
    exact (stirs_of_ready (size_mono hid hi) hbody (hready result hresult)).before hi hsame

theorem stirs_of_returns (hid : id < (c.moment n).size) (hbody : InBody ((c.moment n).thread id side).stack)
    (hreturns : ∀ i ≥ n, (c.moment i).thread id side = (c.moment n).thread id side →
      ∀ service releases, ((c.moment i).thread id side).control = .resume service releases →
      service < (c.moment i).desk.services.size →
      (((c.moment i).thread id side).stack.head? = some .clearing →
        ((c.moment i).desk.service service).work = .idle) →
      c.Stirs id side i ∨ c.Returns service i) : c.Stirs id side n := by
  obtain ⟨i, hi, w, hrest⟩ := c.rests n
  rcases stirs_or_same hid hbody hi with hstirs | hsame
  · exact hstirs
  refine Stirs.before ?_ hi hsame
  have hid' := size_mono hid hi
  have hwaits : ((c.moment i).thread id side).Waits (c.moment i).desk id side := waits hrest hid'
  rw [← hsame] at hbody
  have hfits := (c.sound i).thread id side
  cases hcontrol : ((c.moment i).thread id side).control with
  | recheck => exact stirs_of_ready hid' hbody (hwaits.recheck hcontrol)
  | resume service releases =>
    obtain ⟨hsize, -, -, hwork, -⟩ := hwaits.resume service releases hcontrol
    rcases hreturns i hi hsame service releases hcontrol hsize hwork with hstirs | ⟨j, hj, hdone⟩
    · exact hstirs
    · rcases stirs_or_same hid' hbody hj with hstirs | hstill
      · exact hstirs
      · refine Stirs.before ?_ hj hstill
        rw [← hstill] at hbody hcontrol
        exact stirs_of_done (size_mono hid' hj) hbody (service_size hsize hj) hcontrol hdone
  | start | receive | settle _ | finished =>
    rw [Thread.Fits, hcontrol] at hfits
    exact absurd hfits hbody.ne_nil
  | _ =>
    refine stirs_of_inner ?_
    rw [hcontrol]
    rfl

/-- What a thread in a body may wait for: a collaborator, or leave to go on. -/
theorem resume_cases {t : Thread} {releases : Bool} (hfits : t.Fits) (hbody : InBody t.stack)
    (hcontrol : t.control = .resume service releases) :
    ∃ frame rest, t.stack = frame :: rest ∧ (frame.isCall = true ∨ frame = .clearing) := by
  rw [Thread.Fits, hcontrol] at hfits
  change Stacked .reply t.stack at hfits
  cases hstack : t.stack with
  | nil => exact absurd hstack hbody.ne_nil
  | cons frame rest =>
    rw [hstack] at hfits hbody
    obtain ⟨hneed, -, hbelow⟩ := hfits
    refine ⟨frame, rest, rfl, ?_⟩
    cases frame with
    | collaborator _ _ | requested => exact .inl rfl
    | clearing => exact .inr rfl
    | closing v =>
      obtain rfl : rest = [] := hbelow
      rcases hbody with hbody | hbody <;> cases hbody
    | _ => cases hneed

theorem worker_stirs (hcalls : c.CallsReturn id) (hid : id < (c.moment n).size)
    (hbody : InBody ((c.moment n).thread id .worker).stack) : c.Stirs id .worker n := by
  refine stirs_of_returns hid hbody fun i hi hsame service releases hcontrol _ _ => .inr ?_
  rw [← hsame] at hbody
  obtain ⟨frame, rest, hstack, hcall | rfl⟩ := resume_cases ((c.sound i).thread id .worker) hbody hcontrol
  · refine hcalls i .worker service releases frame rest ?_ hcall
    rw [← hcontrol, ← hstack]
  · have hsided := ((c.attended i).sided (size_mono hid hi) .worker).frames .clearing (by rw [hstack]; exact List.mem_cons_self)
    cases hsided

def distance : Control → Nat
  | .request _ => 3
  | .resume _ _ => 2
  | .replied _ => 1
  | _ => 0

/-- A thread at a checkpoint that moves is about to look again, or it has leave to go on, or it is stopped. -/
theorem held_moved {limits : Limits} {stack : List Frame} {t t' : Thread} (hheld : t.HeldAt stack)
    (h : t.Moved limits side t') :
    (t'.HeldAt stack ∧ (t.control ≠ .clear → distance t'.control < distance t.control)) ∨
      t' = ⟨.passed, stack⟩ ∨ ∃ e, t' = ⟨.raised e, .clearing :: stack⟩ := by
  cases hheld with
  | clear =>
    cases h with
    | step r d _ h =>
      subst h
      simp only [Run.step, Run.waitClear]
      split
      · exact .inr (.inl rfl)
      · exact .inl ⟨.request, fun hfar => absurd rfl hfar⟩
    | interrupted e hrest _ => cases hrest
  | request =>
    cases h with
    | step r d _ h =>
      subst h
      simp only [Run.step, Run.request]
      split
      · exact .inr (.inr ⟨_, rfl⟩)
      · exact .inl ⟨.resume _ _, fun _ => Nat.lt_succ_self 2⟩
    | interrupted e hrest _ => cases hrest
  | resume service releases =>
    cases h with
    | step r d _ h =>
      subst h
      simp only [Run.step, Run.resume]
      split
      · exact .inr (.inr ⟨_, rfl⟩)
      · split
        · exact .inr (.inr ⟨_, rfl⟩)
        · exact .inl ⟨.replied _, fun _ => Nat.lt_succ_self 1⟩
        · exact .inr (.inr ⟨_, rfl⟩)
    | interrupted e _ h => exact .inr (.inr ⟨e, h⟩)
  | replied result =>
    cases h with
    | step r d _ h =>
      subst h
      exact .inl ⟨.clear, fun _ => Nat.lt_succ_self 0⟩
    | interrupted e hrest _ => cases hrest

theorem held_closer {limits : Limits} {stack : List Frame} {t t' : Thread} (hheld : t.HeldAt stack)
    (h : t.Moved limits side t') (hstill : t'.HeldAt stack) (hfar : t.control ≠ .clear) :
    distance t'.control < distance t.control := by
  rcases held_moved hheld h with ⟨-, hcloser⟩ | rfl | ⟨e, rfl⟩
  · exact hcloser hfar
  · cases hstill
  · cases hstill

theorem not_over_of_held {stack : List Frame} {t : Thread} (h : t.HeldAt stack) : ¬t.BodyOver := by
  rintro ⟨-, hcontrol⟩
  cases h <;> rcases hcontrol with ⟨_, hcontrol⟩ | ⟨_, hcontrol⟩ <;> cases hcontrol

theorem moves_inBody (h : c.Moves id side n) (hbody : InBody ((c.moment n).thread id side).stack)
    (hover : ¬((c.moment n).thread id side).BodyOver) : InBody ((c.moment (n + 1)).thread id side).stack :=
  h.inBody ((c.sound n).thread id side) ((c.sound (n + 1)).thread id side) hbody hover

theorem held_or_left {stack : List Frame} (hid : id < (c.moment n).size)
    (hbody : InBody ((c.moment n).thread id side).stack) (hheld : ((c.moment n).thread id side).HeldAt stack)
    (hi : n ≤ i) :
    (((c.moment i).thread id side).HeldAt stack ∧ InBody ((c.moment i).thread id side).stack) ∨
      ∃ j ≥ n, InBody ((c.moment j).thread id side).stack ∧ ((c.moment j).thread id side = ⟨.passed, stack⟩ ∨
        ∃ e, (c.moment j).thread id side = ⟨.raised e, .clearing :: stack⟩) := by
  induction hi with
  | refl => exact .inl ⟨hheld, hbody⟩
  | @step i hle ih =>
    rcases ih with ⟨hheld, hbody⟩ | hleft
    · rcases (c.next i).thread_cases (c.sound i) (size_mono hid hle) hbody with hsame | hmoved
      · rw [← hsame] at hheld hbody
        exact .inl ⟨hheld, hbody⟩
      · have hbody' := moves_inBody hmoved hbody (not_over_of_held hheld)
        rcases held_moved hheld hmoved with ⟨hstill, -⟩ | hleft
        · exact .inl ⟨hstill, hbody'⟩
        · exact .inr ⟨i + 1, Nat.le_succ_of_le hle, hbody', hleft⟩
    · exact .inr hleft

def EndsOrHeld (c : Course) (id : RunId) (side : Side) (n : Nat) : Prop :=
  (∃ i ≥ n, ((c.moment i).thread id side).BodyOver) ∨
    side = .main ∧ ∃ stack, ∃ i ≥ n, ∀ j ≥ i, ((c.moment j).thread id side).HeldAt stack

theorem EndsOrHeld.before (h : c.EndsOrHeld id side i) (hi : n ≤ i) : c.EndsOrHeld id side n := by
  rcases h with ⟨j, hj, hover⟩ | ⟨hside, stack, j, hj, hheld⟩
  · exact .inl ⟨j, Nat.le_trans hi hj, hover⟩
  · exact .inr ⟨hside, stack, j, Nat.le_trans hi hj, hheld⟩

/-- A thread that goes on again and again comes to the end of its body, by induction on how it halts. -/
theorem ends_of_halts {limits : Limits} {t : Thread} (ht : Halts limits side t)
    (hstirs : ∀ n, id < (c.moment n).size → InBody ((c.moment n).thread id side).stack → c.Stirs id side n) :
    ∀ n, id < (c.moment n).size → ((c.moment n).run id).limits = limits → (c.moment n).thread id side = t →
      InBody t.stack → c.EndsOrHeld id side n := by
  induction ht with
  | finished hover =>
    intro n _ _ hthread _
    exact .inl ⟨n, Nat.le_refl n, hthread ▸ hover⟩
  | @move t hstep hrest ihstep ihrest =>
    intro n hid hlimits hthread hbody
    by_cases hover : t.BodyOver
    · exact .inl ⟨n, Nat.le_refl n, hthread ▸ hover⟩
    obtain ⟨i, hi, hsame, hmoves⟩ := hstirs n hid (hthread ▸ hbody)
    rw [hthread] at hsame
    have hnext : n ≤ i + 1 := Nat.le_succ_of_le hi
    have hlimits' := (limits_eq hid hnext).trans hlimits
    have hbody' := moves_inBody hmoves (hsame ▸ hbody) (hsame ▸ hover)
    refine EndsOrHeld.before ?_ hnext
    unfold Moves at hmoves
    rw [hsame, limits_eq hid hi, hlimits] at hmoves
    cases hmoves with
    | step r d hr h => exact ihstep r d hr (i + 1) (size_mono hid hnext) hlimits' h (h ▸ hbody')
    | interrupted e hatRest h => exact ihrest hatRest e (i + 1) (size_mono hid hnext) hlimits' h hbody
  | @held stack t hheld hside _ _ ihpassed ihraised =>
    intro n hid hlimits hthread hbody
    rw [← hthread] at hheld hbody
    by_cases hforever : ∀ j ≥ n, ((c.moment j).thread id side).HeldAt stack
    · exact .inr ⟨hside, stack, n, Nat.le_refl n, hforever⟩
    have hleft : ∃ j ≥ n, InBody ((c.moment j).thread id side).stack ∧ ((c.moment j).thread id side = ⟨.passed, stack⟩ ∨
        ∃ e, (c.moment j).thread id side = ⟨.raised e, .clearing :: stack⟩) := by
      apply Classical.byContradiction
      intro hnone
      refine hforever fun j hj => ?_
      rcases held_or_left hid hbody hheld hj with ⟨hstill, -⟩ | hleft
      · exact hstill
      · exact absurd hleft hnone
    obtain ⟨j, hj, hbody', hpassed | ⟨e, hraised⟩⟩ := hleft
    · refine EndsOrHeld.before ?_ hj
      exact ihpassed j (size_mono hid hj) ((limits_eq hid hj).trans hlimits) hpassed (hpassed ▸ hbody')
    · refine EndsOrHeld.before ?_ hj
      exact ihraised e j (size_mono hid hj) ((limits_eq hid hj).trans hlimits) hraised (hraised ▸ hbody')

theorem ends_or_held (hid : id < (c.moment n).size) (hbody : InBody ((c.moment n).thread id side).stack)
    (hstirs : ∀ n, id < (c.moment n).size → InBody ((c.moment n).thread id side).stack → c.Stirs id side n) :
    c.EndsOrHeld id side n := by
  have hhalts := halts_of_fits ((c.moment n).run id).limits side ((c.sound n).thread id side) hbody
  exact ends_of_halts hhalts hstirs n hid rfl rfl hbody

theorem worker_ends (hcalls : c.CallsReturn id) (hid : id < (c.moment n).size)
    (hbody : InBody ((c.moment n).thread id .worker).stack) : ∃ i ≥ n, ((c.moment i).thread id .worker).BodyOver := by
  rcases ends_or_held hid hbody (fun _ hid hbody => worker_stirs hcalls hid hbody) with hover | ⟨hside, -⟩
  · exact hover
  · cases hside

structure Occupied (m : Moment) (id : RunId) : Prop where
  busy : (m.run id).governor.idle = false
  body : InBody (m.thread id .worker).stack
  awake : ∀ service releases, (m.thread id .worker).control ≠ .resume service releases

theorem occupied (c : Course) (hid : id < (c.moment n).size) (hbusy : ((c.moment n).run id).governor.idle = false) :
    Occupied (c.moment n) id := by
  obtain ⟨hne, hawake⟩ := (c.attended n).busy hid hbusy
  refine ⟨hbusy, ?_, hawake⟩
  rcases Step.fits_cases ((c.sound n).thread id .worker) with hbody | ⟨v, hclosing⟩ | ⟨hempty, -⟩
  · exact hbody
  · have hsided := ((c.attended n).sided hid .worker).frames (.closing v) (by rw [hclosing]; exact List.mem_cons_self)
    cases hsided
  · exact absurd hempty hne

theorem idle_of_over (hid : id < (c.moment n).size) (hover : ((c.moment n).thread id .worker).BodyOver) :
    ((c.moment (n + 1)).run id).governor.idle = true := by
  obtain ⟨hstack, hcontrol⟩ := hover
  have hhandler : ((c.moment n).thread id .worker).stack = [.handler] := by
    refine hstack.resolve_left fun hprogram => ?_
    have hsided := ((c.attended n).sided hid .worker).frames .program (by rw [hprogram]; exact List.mem_cons_self)
    cases hsided
  have hinner : ((c.moment n).thread id .worker).control.atRest = false := by
    rcases hcontrol with ⟨signal, hcontrol⟩ | ⟨e, hcontrol⟩ <;> rw [hcontrol] <;> rfl
  obtain ⟨-, hthread, -⟩ := (c.next n).inner (c.sound n) hinner
  have hempty : ((c.moment (n + 1)).thread id .worker).stack = [] := by
    rw [hthread]
    generalize (c.moment n).thread id .worker = t at hhandler hcontrol
    obtain ⟨control, stack⟩ := t
    obtain rfl : stack = _ := hhandler
    rcases hcontrol with ⟨signal, rfl⟩ | ⟨e, rfl⟩
    · exact Run.leaveHandler_stack _ _ _
    · exact Run.leaveHandler_stack _ _ _
  cases hidle : ((c.moment (n + 1)).run id).governor.idle with
  | true => rfl
  | false => exact absurd hempty ((c.attended (n + 1)).busy (Nat.lt_of_lt_of_le hid (c.next n).size) hidle).1

theorem main_stirs (hcalls : c.CallsReturn id) (hid : id < (c.moment n).size)
    (hbody : InBody ((c.moment n).thread id .main).stack) : c.Stirs id .main n := by
  refine stirs_of_returns hid hbody fun i hi hsame service releases hcontrol hsize hwork => ?_
  have hid' := size_mono hid hi
  rw [← hsame] at hbody
  obtain ⟨frame, rest, hstack, hcall | rfl⟩ := resume_cases ((c.sound i).thread id .main) hbody hcontrol
  · refine .inr (hcalls i .main service releases frame rest ?_ hcall)
    rw [← hcontrol, ← hstack]
  · have hidle := hwork (by rw [hstack]; rfl)
    rcases idle_returns_or_parked hsize hidle with hreturns | ⟨j, hj, hparked⟩
    · exact .inr hreturns
    -- The service waits while a handler is busy. The handler ends, and then the service waits no more.
    rcases stirs_or_same hid' hbody hj with hstirs | hstill
    · exact .inl hstirs
    have hidle' := (work_eq hsize hj).trans hidle
    obtain ⟨-, hbusy⟩ := (c.attended j).keeps (size_mono hid' hj) (hstill ▸ hcontrol) (service_size hsize hj) hidle' hparked
    obtain ⟨k, hk, hover⟩ := worker_ends hcalls (size_mono hid' hj) (c.occupied (size_mono hid' hj) hbusy).body
    have hnext : j ≤ k + 1 := Nat.le_succ_of_le hk
    have hlast : i ≤ k + 1 := Nat.le_trans hj hnext
    rcases stirs_or_same hid' hbody hlast with hstirs | hstill'
    · exact .inl hstirs
    have hfree := idle_of_over (size_mono hid' (Nat.le_trans hj hk)) hover
    refine .inr (Returns.before (idle_returns_of_left (service_size hsize hj) hidle' hparked hnext fun hwaits => ?_) hj)
    obtain ⟨-, hbusy'⟩ := (c.attended (k + 1)).keeps (size_mono hid' hlast) (hstill' ▸ hcontrol) (service_size hsize hlast)
      ((work_eq hsize hlast).trans hidle) hwaits
    exact absurd (hfree.symm.trans hbusy') nofun

/-- From the moment on, the main thread is held at one checkpoint by handlers that follow each other without end: it looks
again and again, and a handler is busy each time. -/
structure Starved (c : Course) (id : RunId) (n : Nat) : Prop where
  held : ∃ stack, ∀ i ≥ n, ((c.moment i).thread id .main).HeldAt stack
  looks : ∀ i, ∃ j ≥ i, ((c.moment j).thread id .main).control = .clear
  occupied : ∀ i ≥ n, ((c.moment i).thread id .main).control = .clear → Occupied (c.moment i) id
  handlers : ∀ i, ∃ j ≥ i, ((c.moment j).thread id .worker).BodyOver

theorem held_inBody {stack : List Frame} {t : Thread} (hfits : t.Fits) (hheld : t.HeldAt stack) : InBody t.stack := by
  rcases Step.fits_cases hfits with hbody | ⟨v, hclosing⟩ | ⟨hempty, -⟩
  · exact hbody
  · cases hheld with
    | clear =>
      obtain rfl : stack = [.closing v] := hclosing
      cases hfits.1
    | request | resume _ _ | replied _ => cases hclosing
  · cases hheld with
    | clear =>
      obtain rfl : stack = [] := hempty
      exact hfits.elim
    | request | resume _ _ | replied _ => cases hempty

theorem held_looks (hcalls : c.CallsReturn id) {stack : List Frame}
    (hheld : ∀ i ≥ n, ((c.moment i).thread id .main).HeldAt stack) (hid : id < (c.moment n).size) (hi : n ≤ i) :
    ∃ j ≥ i, ((c.moment j).thread id .main).control = .clear := by
  generalize hdistance : distance ((c.moment i).thread id .main).control = distance
  induction distance using Nat.strongRecOn generalizing i with
  | ind distance ih =>
    by_cases hclear : ((c.moment i).thread id .main).control = .clear
    · exact ⟨i, Nat.le_refl i, hclear⟩
    have hbody := held_inBody ((c.sound i).thread id .main) (hheld i hi)
    obtain ⟨j, hj, hsame, hmoves⟩ := main_stirs hcalls (size_mono hid hi) hbody
    have hnext : n ≤ j + 1 := Nat.le_succ_of_le (Nat.le_trans hi hj)
    have hcloser := held_closer (hheld j (Nat.le_trans hi hj)) hmoves (hheld (j + 1) hnext) (hsame ▸ hclear)
    rw [hsame, hdistance] at hcloser
    obtain ⟨k, hk, hlooks⟩ := ih _ hcloser hnext rfl
    exact ⟨k, Nat.le_trans hj (Nat.le_of_succ_le hk), hlooks⟩

/-- A thread that stays at its checkpoint finds a handler busy when it looks. -/
theorem held_occupied {stack : List Frame} (hid : id < (c.moment n).size)
    (hheld : ((c.moment (n + 1)).thread id .main).HeldAt stack)
    (hclear : ((c.moment n).thread id .main).control = .clear) : Occupied (c.moment n) id := by
  have hinner : ((c.moment n).thread id .main).control.atRest = false := by rw [hclear]; rfl
  obtain ⟨-, hthread, -⟩ := (c.next n).inner (c.sound n) hinner
  refine c.occupied hid ?_
  cases hidle : ((c.moment n).run id).governor.idle with
  | false => rfl
  | true =>
    generalize (c.moment n).thread id .main = t at hclear hthread
    obtain ⟨control, rest⟩ := t
    obtain rfl : control = .clear := hclear
    have hpassed : (c.moment (n + 1)).thread id .main = ⟨.passed, rest⟩ := hthread.trans (congrArg Step.thread (if_pos hidle))
    rw [hpassed] at hheld
    cases hheld

theorem starved_of_held (hcalls : c.CallsReturn id) (hid : id < (c.moment n).size) {stack : List Frame}
    (hheld : ∀ i ≥ n, ((c.moment i).thread id .main).HeldAt stack) : c.Starved id n := by
  have hlooks (i : Nat) : ∃ j ≥ max i n, ((c.moment j).thread id .main).control = .clear :=
    held_looks hcalls hheld hid (Nat.le_max_right i n)
  have hoccupied (i : Nat) (hi : n ≤ i) (hclear : ((c.moment i).thread id .main).control = .clear) :
      Occupied (c.moment i) id := held_occupied (size_mono hid hi) (hheld (i + 1) (Nat.le_succ_of_le hi)) hclear
  refine ⟨⟨stack, hheld⟩, fun i => ?_, hoccupied, fun i => ?_⟩
  · obtain ⟨j, hj, hclear⟩ := hlooks i
    exact ⟨j, Nat.le_trans (Nat.le_max_left i n) hj, hclear⟩
  · obtain ⟨j, hj, hclear⟩ := hlooks i
    have hn := Nat.le_trans (Nat.le_max_right i n) hj
    obtain ⟨k, hk, hover⟩ := worker_ends hcalls (size_mono hid hn) (hoccupied j hn hclear).body
    exact ⟨k, Nat.le_trans (Nat.le_trans (Nat.le_max_left i n) hj) hk, hover⟩

/-- Every body that a thread runs at a reachable moment comes to its end after finitely many moves, if collaborators
answer; the body of a program may be held for ever by handlers, where they follow each other without end. -/
theorem bodies_end (hcalls : c.CallsReturn id) (hid : id < (c.moment n).size)
    (hbody : InBody ((c.moment n).thread id side).stack) :
    (∃ i ≥ n, ((c.moment i).thread id side).BodyOver) ∨ side = .main ∧ ∃ i ≥ n, c.Starved id i := by
  cases side with
  | worker => exact .inl (worker_ends hcalls hid hbody)
  | main =>
    rcases ends_or_held hid hbody (fun _ hid hbody => main_stirs hcalls hid hbody) with hover | ⟨-, stack, i, hi, hheld⟩
    · exact .inl hover
    · exact .inr ⟨rfl, i, hi, starved_of_held hcalls (size_mono hid hi) hheld⟩

end

end Course

end DeskScript
