import DeskScript.Proofs.Machine.Withdrawal

set_option autoImplicit false

/-!
# Handlers that fail

A handler that ends with an error of the script aborts its run, and a run that was aborted never completes; nor does a run
that was cancelled before, unless its main thread had heard by then that no handler is left: `failing_handlers_fail_run`.
A fault is no such error: the worker is over then, and nothing tells the main thread that its handler failed, see
`faulty_handler_is_ignored`.
-/

namespace DeskScript

inductive Thread.Joined (d : Desk) : Thread → Prop
  | waiting {service : ServiceId} (releases : Bool) (v : Value) (stack : List Frame) {result : ServiceResult}
      (hdone : (d.service service).stage = .done result) (hanswer : result ≠ .interrupted) :
      Joined d ⟨.resume service releases, .closing v :: stack⟩
  | replied (result : ServiceResult) (v : Value) (stack : List Frame) : Joined d ⟨.replied result, .closing v :: stack⟩

theorem Thread.not_joined {d : Desk} {t : Thread} (hreplied : ∀ result, t.control ≠ .replied result)
    (hresume : ∀ service releases, t.control ≠ .resume service releases) : ¬t.Joined d := by
  intro hjoined
  cases hjoined with
  | waiting => exact hresume _ _ rfl
  | replied => exact hreplied _ rfl

theorem Thread.Joined.of_services {d d' : Desk} {t : Thread} (h : t.Joined d) (hservices : d'.services = d.services) :
    t.Joined d' := by
  cases h with
  | waiting releases v stack hdone hanswer =>
    refine .waiting releases v stack ?_ hanswer
    rw [Desk.service, hservices]
    exact hdone
  | replied result v stack => exact .replied result v stack

namespace Run

variable {r : Run} {d : Desk} {t : Thread}

theorem endingOf_ne_completed (e : Raised) (v : Value) : endingOf e ≠ .completed v := by
  unfold endingOf
  split
  · split <;> rintro ⟨⟩
  all_goals rintro ⟨⟩

theorem Closes.goes {ending : Ending} (h : r.Closes d t ending) : ¬t.control.isOver = true := by
  cases h with
  | stopped | aborted | joined => rintro ⟨⟩

/-- A run completes when it was not aborted and its handlers are over. -/
theorem Closes.completed {v : Value} (h : r.Closes d t (.completed v)) :
    r.governor.aborted = none ∧ ∃ result, t = ⟨.replied result, [.closing v]⟩ := by
  generalize hended : Ending.completed v = ending at h
  cases h with
  | stopped e frame => exact absurd hended.symm (endingOf_ne_completed e v)
  | aborted result value e _ => cases hended
  | joined result value hnone =>
    cases hended
    exact ⟨hnone, result, rfl⟩

/-- In a stopped run the main thread hears of its handlers only if it was about to. -/
theorem step_joined (hfits : t.Fits) (hsided : t.Sided .main) (hstopped : r.governor.isStopped = true)
    (hjoined : (step .main r d t).thread.Joined (step .main r d t).desk) : t.Joined d := by
  obtain ⟨e, hobjection, -⟩ := objection_of_stopped hstopped d.host.clock.seconds
  have hother (hreplied : ∀ result, (step .main r d t).thread.control ≠ .replied result)
      (hresume : ∀ service releases, (step .main r d t).thread.control ≠ .resume service releases) : t.Joined d :=
    absurd hjoined (Thread.not_joined hreplied hresume)
  cases hsided.turn hfits with
  | computes hcomputes =>
    have hcalm := @step_calm .main r d t hcomputes
    refine hother (fun result hreplied => ?_) (Control.not_resume_of_inner hcalm.inner)
    have hgrants := hcalm.gate (by rw [hreplied]; rfl)
    rw [hreplied] at hgrants
    generalize t.control = control at hgrants
    cases hgrants
  | checkpoint stack =>
    simp only [step, checkpoint, hobjection] at hother
    exact hother (by rintro _ ⟨⟩) (by rintro _ _ ⟨⟩)
  | request work stack =>
    simp only [step, request, hobjection] at hother
    exact hother (by rintro _ ⟨⟩) (by rintro _ _ ⟨⟩)
  | resume service stack =>
    simp only [step, resume] at hjoined
    split at hjoined
    · cases hjoined
    · split at hjoined
      · cases hjoined
      · rename_i result hanswer hdone
        cases hjoined with
        | replied _ v rest => exact .waiting _ v rest hdone hanswer
      · cases hjoined
  | ran signal => exact hother (by rintro _ ⟨⟩) (by rintro _ _ ⟨⟩)
  | stopped e hframe =>
    rcases hframe with rfl | ⟨v, rfl⟩
    · exact hother (by rintro _ ⟨⟩) (by rintro _ _ ⟨⟩)
    · exact hother (by rintro _ ⟨⟩) (by rintro _ _ ⟨⟩)
  | joined result v => exact .replied result v []
  | start => exact hother (by rintro _ ⟨⟩) (by rintro _ _ ⟨⟩)
  | settle ending => exact hother (by rintro _ ⟨⟩) (by rintro _ _ ⟨⟩)
  | finished => exact hother (by rintro _ ⟨⟩) (by rintro _ _ ⟨⟩)

end Run

namespace Moment

variable {m n : Moment} {id : RunId}

theorem Move.joined_before (hn : Move m n) (hm : Possible m) (hid : id < m.size)
    (hstopped : (m.run id).governor.isStopped = true) (hjoined : (n.thread id .main).Joined n.desk) :
    (m.thread id .main).Joined m.desk := by
  rcases hn.main_cases hm hid with hacts | ⟨hthread, -⟩
  · obtain ⟨ready, hat, -⟩ := hacts.main_step hm.sound
    rw [hat.thread, hat.desk] at hjoined
    have hbefore := Run.step_joined (hm.sound.thread id .main) (hm.attended.sided hid .main) hstopped hjoined
    exact hbefore.of_services rfl
  · rw [hthread] at hjoined
    generalize ht : m.thread id .main = t at hjoined ⊢
    cases hjoined with
    | @waiting service releases v stack result hdone hanswer =>
      have hcontrol : (m.thread id .main).control = .resume service releases := by rw [ht]
      exact .waiting releases v stack ((hm.heeding hid).done_before hm hn hstopped hcontrol hdone hanswer) hanswer
    | replied result v stack => exact .replied result v stack

/-- The run has not completed, and does not wait for its worker to do so. -/
structure Incomplete (id : RunId) (m : Moment) : Prop where
  settles : ∀ v, (m.thread id .main).control ≠ .settle (.completed v)
  ending : ∀ v, (m.run id).ending ≠ some (.completed v)

theorem Incomplete.move (h : Incomplete id m) (hm : Possible m) (hid : id < m.size) (hn : Move m n)
    (hcloses : ∀ v, Acts id .main m n → (n.thread id .main).control ≠ .settle (.completed v)) : Incomplete id n := by
  rcases hn.main_cases hm hid with hacts | ⟨hthread, hending⟩
  · refine ⟨fun v => hcloses v hacts, fun v hv => ?_⟩
    rcases hacts.ending hm hid with hsame | ⟨-, ending, hsettle, hending⟩
    · exact h.ending v (hsame.symm.trans hv)
    · obtain rfl : ending = .completed v := Option.some.inj (hending.symm.trans hv)
      exact h.settles v hsettle
  · refine ⟨?_, ?_⟩
    · rw [hthread]
      exact h.settles
    · rw [hending]
      exact h.ending

theorem Possible.incomplete (hm : Possible m) (hid : id < m.size)
    (hgoes : ¬(m.thread id .main).control.isOver = true) : Incomplete id m := by
  refine ⟨fun v hsettle => hgoes ?_, fun v hended => hgoes (hm.over_of_completed hid hended)⟩
  rw [hsettle]
  rfl

/-- A run that has closed was not aborted, or is not to complete. -/
theorem Possible.incomplete_of_over (hm : Possible m) (hid : id < m.size)
    (hover : (m.thread id .main).control.isOver = true) : (m.run id).governor.aborted = none ∨ Incomplete id m := by
  refine hm.over_induction (P := fun id m => (m.run id).governor.aborted = none ∨ Incomplete id m) hid ?_ ?_ hover
  · intro m n id ready ending hm hid hacts hcloses hat hworker
    have hincomplete (hother : ∀ v, ending ≠ .completed v) : Incomplete id n := by
      refine (hm.incomplete hid hcloses.goes).move hm hid hacts.move fun v _ hsettle => hother v ?_
      rw [hat.thread] at hsettle
      exact Control.settle.inj hsettle
    cases ending with
    | completed v =>
      left
      rw [hat.run, Run.close_governor]
      exact hcloses.completed.1
    | failed | cancelled | broken => exact .inr (hincomplete (by rintro _ ⟨⟩))
  · intro m n id hm hid hn hover h
    have hcancelled := hm.cancelled_of_over hid hover
    rcases h with hnone | hincomplete
    · exact .inl (((hn.firm hm hid).unmoved hcancelled).trans hnone)
    · refine .inr (hincomplete.move hm hid hn fun v hacts hsettle => ?_)
      rw [hacts.finishes hm.sound hover] at hsettle
      cases hsettle

/-- The run was aborted before it could complete, or cancelled before it had heard that no handler is left. -/
structure Doomed (id : RunId) (m : Moment) : Prop extends Incomplete id m where
  stopped : (m.run id).governor.aborted ≠ none ∨
    (m.run id).governor.cancelled = true ∧ ¬(m.thread id .main).Joined m.desk

/-- A main thread that finds its run stopped does not settle on its completion. -/
theorem Doomed.closes (h : Doomed id m) (hm : Possible m) (hid : id < m.size) (v : Value) (hacts : Acts id .main m n) :
    (n.thread id .main).control ≠ .settle (.completed v) := by
  intro hsettle
  have hover : (n.thread id .main).control.isOver = true := by
    rw [hsettle]
    rfl
  rcases hacts.over_cases hm hid hover with hbefore | ⟨ready, ending, hcloses, hat, -⟩
  · rw [hacts.finishes hm.sound hbefore] at hsettle
    cases hsettle
  · rw [hat.thread] at hsettle
    obtain rfl : ending = .completed v := Control.settle.inj hsettle
    obtain ⟨hnone, result, hthread⟩ := hcloses.completed
    rcases h.stopped with haborted | ⟨-, hjoined⟩
    · exact haborted hnone
    · refine hjoined ?_
      rw [hthread]
      exact .replied result v []

theorem Doomed.move (h : Doomed id m) (hm : Possible m) (hid : id < m.size) (hn : Move m n) : Doomed id n := by
  refine ⟨h.toIncomplete.move hm hid hn (h.closes hm hid), ?_⟩
  have hfirm := hn.firm hm hid
  rcases h.stopped with haborted | ⟨hcancelled, hjoined⟩
  · exact .inl (hfirm.aborted_ne haborted)
  · refine .inr ⟨hfirm.cancelled hcancelled, fun hafter => hjoined (hn.joined_before hm hid ?_ hafter)⟩
    rw [Governor.isStopped, hcancelled]
    rfl

theorem Doomed.moves (h : Doomed id m) (hm : Possible m) (hid : id < m.size) (hn : Moves m n) : Doomed id n :=
  hn.run_induction hm hid (fun hm hid hn h => h.move hm hid hn) h

/-- A handler fails in a run that has closed only if the run is not to complete. -/
theorem Possible.incomplete_of_failed (hm : Possible m) (hid : id < m.size) {e : Raised}
    (hthread : m.thread id .worker = ⟨.raised e, [.handler]⟩) (hfails : e.fails = true)
    (hover : (m.thread id .main).control.isOver = true) : Incomplete id m := by
  refine (hm.incomplete_of_over hid hover).resolve_left fun hnone => ?_
  rcases (hm.silenced hid hover).worker with ⟨-, haside⟩ | hquits
  · obtain ⟨w, -, -, hwithin, -⟩ := hm.raised hid hthread
    exact haside w _ hwithin
  · rw [hthread] at hquits
    cases hquits with
    | leaving _ haborted _ => exact haborted hfails hnone

/-- A handler that fails in a run that goes on aborts it. -/
theorem Possible.doomed_of_failed (hm : Possible m) (hid : id < m.size) {e : Raised}
    (hthread : m.thread id .worker = ⟨.raised e, [.handler]⟩) (hfails : e.fails = true)
    (hgoes : (m.run id).governor.cancelled = false) : m.Move (m.after 1) ∧ Doomed id (m.after 1) := by
  obtain ⟨w, -, -, hwithin, -⟩ := hm.raised hid hthread
  have hat := at_within w id .worker (.raise (m.run id) m.desk e [.handler])
  obtain ⟨error, herror⟩ : ∃ error, e.error? = some error := by
    cases e with
    | error error | abort error => exact ⟨error, rfl⟩
    | fault f => cases hfails
    | interrupted => cases hfails
  have hfollow : m.after 1 = .within w id .worker ((m.run id).leaveHandler m.desk (.error e)) := by
    change m.follow = _
    rw [hwithin, follow_raised, hat.run]
    rfl
  have hacts : Acts id .worker m (m.after 1) := by
    rw [hfollow, hwithin, hat.run]
    exact .step rfl
  have hincomplete : Incomplete id m := by
    refine hm.incomplete hid fun hover => ?_
    cases hgoes.symm.trans (hm.cancelled_of_over hid hover)
  refine ⟨hacts.move, hincomplete.move hm hid hacts.move fun v hmain => ?_, .inl ?_⟩
  · have hrests : (m.thread id .worker).control.atRest = true := hmain.other_rests hm.sound
    rw [hthread] at hrests
    cases hrests
  · rw [hfollow, (at_within w id .worker _).run, Run.leaveHandler_aborts hfails herror, hgoes]
    cases (m.run id).governor.aborted <;> rintro ⟨⟩

end Moment

/-- In every interleaving: if the body of a handler ends with an error of the script that is no cancellation, its run does
not complete. If the run was cancelled before, this is so unless the main thread has heard that no handler is left. -/
theorem failing_handlers_fail_run {m : Moment} (hm : m.Possible) {id : RunId} (hid : id < m.size) {e : Raised}
    (hthread : m.thread id .worker = ⟨.raised e, [.handler]⟩) (hfails : e.fails = true)
    (hjoined : (m.run id).governor.cancelled = true → ¬(m.thread id .main).Joined m.desk) {n : Moment} (hn : m.Moves n)
    (v : Value) : (n.run id).ending ≠ some (.completed v) := by
  have hincomplete : m.Incomplete id := by
    by_cases hover : (m.thread id .main).control.isOver = true
    · exact hm.incomplete_of_failed hid hthread hfails hover
    · exact hm.incomplete hid hover
  cases hgoes : (m.run id).governor.cancelled with
  | true =>
    have hdoomed : m.Doomed id := ⟨hincomplete, .inr ⟨hgoes, hjoined hgoes⟩⟩
    exact (hdoomed.moves hm hid hn).ending v
  | false =>
    obtain ⟨hmove, hdoomed⟩ := hm.doomed_of_failed hid hthread hfails hgoes
    obtain ⟨w, -, -, hwithin, -⟩ := hm.raised hid hthread
    -- Nothing else moves before the error has left the handler.
    have hgo (j : Nat) (hj : j < 1) : ∃ w id side s, m.after j = .within w id side s ∧ s.pace = .go := by
      obtain rfl : j = 0 := Nat.lt_one_iff.1 hj
      exact ⟨w, id, .worker, _, hwithin, rfl⟩
    rcases hn.after_or hgo with ⟨j, hj, rfl⟩ | hmoves
    · obtain rfl : j = 0 := Nat.lt_one_iff.1 hj
      exact hincomplete.ending v
    · exact (hdoomed.moves (hm.move hmove) (Nat.lt_of_lt_of_le hid hmove.size) hmoves).ending v

def Thread.failure? : Thread → Option Raised
  | ⟨.raised e, [.handler]⟩ => some e
  | _ => none

theorem Thread.of_failure {t : Thread} {p : Raised → Bool} (h : t.failure?.any p = true) :
    ∃ e, t = ⟨.raised e, [.handler]⟩ ∧ p e = true := by
  unfold failure? at h
  split at h
  · exact ⟨_, rfl, h⟩
  · cases h

def Raised.isFault : Raised → Bool
  | .fault _ => true
  | _ => false

namespace Failing

/-- The tokens of `on "t" {print $x}` and `emit "t"`, without places. -/
def tokens : List Token :=
  [.keyword .on, .text "t", .symbol .leftBrace, .keyword .print, .var "x", .symbol .rightBrace, .newline, .keyword .emit,
    .text "t", .finish].map fun content => ⟨content, "", default⟩

def program : Program :=
  ⟨default, [.on default Again.event ⟨default, [.print default (.var default "x")]⟩, Again.emit], #[]⟩

def world : World := ({} : World).launch "script" program {} 0 {} .root

theorem world_reachable : (Moment.resting world).Reachable :=
  Moment.launched_reachable tokens rfl (by simp)

def moment : Moment := (Moment.resting world).after 34

theorem moment_possible : moment.Possible := (Moment.after_reachable world_reachable 34).possible

theorem moment_thread : ∃ e, moment.thread 0 .worker = ⟨.raised e, [.handler]⟩ ∧ e.fails = true :=
  Thread.of_failure (by decide +kernel)

end Failing

/-- The handler of this run fails, and when the run has ended, it has not completed. -/
theorem failing_handlers_fail_run_failing : Failing.moment.Possible ∧ 0 < Failing.moment.size ∧
    (∃ e, Failing.moment.thread 0 .worker = ⟨.raised e, [.handler]⟩ ∧ e.fails = true) ∧
    (Failing.moment.run 0).governor.cancelled = false ∧ Failing.moment.Moves (Failing.moment.after 11) ∧
    ((Failing.moment.after 11).run 0).ending.isSome = true ∧
    ∀ v, ((Failing.moment.after 11).run 0).ending ≠ some (.completed v) := by
  have hsize : 0 < Failing.moment.size := by decide +kernel
  have hgoes : (Failing.moment.run 0).governor.cancelled = false := by decide +kernel
  have hmoves := Failing.moment.moves_after 11
  obtain ⟨e, hthread, hfails⟩ := Failing.moment_thread
  refine ⟨Failing.moment_possible, hsize, ⟨e, hthread, hfails⟩, hgoes, hmoves, by decide +kernel, fun v => ?_⟩
  have hjoined : (Failing.moment.run 0).governor.cancelled = true →
      ¬(Failing.moment.thread 0 .main).Joined Failing.moment.desk := by
    rw [hgoes]
    rintro ⟨⟩
  exact @failing_handlers_fail_run Failing.moment Failing.moment_possible 0 hsize e hthread hfails hjoined _ hmoves v

namespace Faulty

/-- The tokens of `on "t" {close}` and `emit "t"`, without places. -/
def tokens : List Token :=
  [.keyword .on, .text "t", .symbol .leftBrace, .keyword .close, .symbol .rightBrace, .newline, .keyword .emit,
    .text "t", .finish].map fun content => ⟨content, "", default⟩

def program : Program :=
  ⟨default, [.on default Again.event ⟨default, [.command default (.close none)]⟩, Again.emit], #[]⟩

def host : Host := { state := ⟨[("windows", .dict [("a", .int 1)])]⟩ }

def world : World := ({ desk := { host } } : World).launch "script" program {} 0 {} .root

theorem world_reachable : (Moment.resting world).Reachable :=
  Moment.launched_reachable tokens rfl (by simp [host])

def moment : Moment := (Moment.resting world).after 32

theorem moment_possible : moment.Possible := (Moment.after_reachable world_reachable 32).possible

theorem moment_thread : ∃ e, moment.thread 0 .worker = ⟨.raised e, [.handler]⟩ ∧ e.isFault = true :=
  Thread.of_failure (by decide +kernel)

theorem completed : ∃ v, ((moment.after 8).run 0).ending = some (.completed v) :=
  Ending.completed_of_isCompleted (by decide +kernel)

end Faulty

/-- The handler of this run ends with a fault, in a run that was not cancelled, and the run completes. -/
theorem faulty_handler_is_ignored : Faulty.moment.Possible ∧ (Faulty.moment.run 0).governor.cancelled = false ∧
    (∃ e, Faulty.moment.thread 0 .worker = ⟨.raised e, [.handler]⟩ ∧ e.isFault = true) ∧
    Faulty.moment.Moves (Faulty.moment.after 8) ∧ ∃ v, ((Faulty.moment.after 8).run 0).ending = some (.completed v) :=
  ⟨Faulty.moment_possible, by decide +kernel, Faulty.moment_thread, Faulty.moment.moves_after 8, Faulty.completed⟩

end DeskScript
