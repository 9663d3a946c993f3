import DeskScript.Proofs.Machine.Waking

set_option autoImplicit false

/-!
# The turns of a thread

What a thread may be about to do, by the shape of its stack and by its side: to compute, to ask for leave, to open or end a
wait, to begin or end a body, or to end itself. `Thread.Sided.turn` is the inversion that the invariants of a run go by,
one case for each turn.
-/

namespace DeskScript

inductive Thread.Turn : Side → Thread → Prop
  | computes {side : Side} {t : Thread} (h : t.computes = true) : Turn side t
  | checkpoint {side : Side} (stack : List Frame) : Turn side ⟨.checkpoint, stack⟩
  | request {side : Side} (work : Work) (stack : List Frame) : Turn side ⟨.request work, stack⟩
  | resume {side : Side} (service : ServiceId) (stack : List Frame) :
      Turn side ⟨.resume service (decide (side = .worker)), stack⟩
  -- the end of a handler
  | handled (signal : Option Signal) : Turn .worker ⟨.ended signal, [.handler]⟩
  | failed (e : Raised) : Turn .worker ⟨.raised e, [.handler]⟩
  -- the end of a program, and of the wait for its handlers
  | ran (signal : Option Signal) : Turn .main ⟨.ended signal, [.program]⟩
  | stopped (e : Raised) {frame : Frame} (h : frame = .program ∨ ∃ v, frame = .closing v) : Turn .main ⟨.raised e, [frame]⟩
  | joined (result : ServiceResult) (v : Value) : Turn .main ⟨.replied result, [.closing v]⟩
  -- the life of a thread
  | start {side : Side} : Turn side ⟨.start, []⟩
  | receive : Turn .worker ⟨.receive, []⟩
  | settle (ending : Ending) : Turn .main ⟨.settle ending, []⟩
  | finished {side : Side} : Turn side ⟨.finished, []⟩

theorem Thread.Sided.turn {side : Side} {t : Thread} (hsided : t.Sided side) (hfits : t.Fits) : t.Turn side := by
  by_cases hcomputes : t.computes = true
  · exact .computes hcomputes
  obtain ⟨control, stack⟩ := t
  have hof {frame : Frame} (hmem : frame ∈ stack) : frame.isOf side = true := hsided.frames frame hmem
  match control, stack with
  | .checkpoint, stack => exact .checkpoint stack
  | .request work, stack => exact .request work stack
  | .resume service releases, stack =>
    obtain rfl : releases = decide (side = .worker) := by simpa [Control.isOf] using hsided.control
    exact .resume service stack
  | .ended signal, frame :: stack =>
    obtain ⟨⟨hneed, -, hbelow⟩, -⟩ := hfits
    rcases Run.ground_cases hcomputes with rfl | rfl | ⟨v, rfl⟩
    · obtain rfl : side = .worker := by simpa [Frame.isOf] using hof List.mem_cons_self
      obtain rfl : stack = [] := hbelow
      exact .handled signal
    · obtain rfl : side = .main := by simpa [Frame.isOf] using hof List.mem_cons_self
      obtain rfl : stack = [] := hbelow
      exact .ran signal
    · cases hneed
  | .raised e, frame :: stack =>
    obtain ⟨need, -, -, hbelow⟩ := hfits
    rcases Run.ground_cases hcomputes with rfl | rfl | ⟨v, rfl⟩
    · obtain rfl : side = .worker := by simpa [Frame.isOf] using hof List.mem_cons_self
      obtain rfl : stack = [] := hbelow
      exact .failed e
    · obtain rfl : side = .main := by simpa [Frame.isOf] using hof List.mem_cons_self
      obtain rfl : stack = [] := hbelow
      exact .stopped e (.inl rfl)
    · obtain rfl : side = .main := by simpa [Frame.isOf] using hof List.mem_cons_self
      obtain rfl : stack = [] := hbelow
      exact .stopped e (.inr ⟨v, rfl⟩)
  | .replied result, frame :: stack =>
    obtain ⟨hneed, -, hbelow⟩ := hfits
    rcases Run.ground_cases hcomputes with rfl | rfl | ⟨v, rfl⟩
    · cases hneed
    · cases hneed
    · obtain rfl : side = .main := by simpa [Frame.isOf] using hof List.mem_cons_self
      obtain rfl : stack = [] := hbelow
      exact .joined result v
  | .start, stack =>
    obtain rfl : stack = [] := hfits
    exact .start
  | .receive, stack =>
    obtain rfl : side = .worker := by simpa [Control.isOf] using hsided.control
    obtain rfl : stack = [] := hfits
    exact .receive
  | .settle ending, stack =>
    obtain rfl : side = .main := by simpa [Control.isOf] using hsided.control
    obtain rfl : stack = [] := hfits
    exact .settle ending
  | .finished, stack =>
    obtain rfl : stack = [] := hfits
    exact .finished
  | .statements _ _, stack | .perform _ _, stack | .evaluate _ _, stack | .recheck, stack | .clear, stack
  | .value _, _ :: _ | .passed, _ :: _ => exact absurd rfl hcomputes
  | .value _, [] | .passed, [] | .replied _, [] => exact hfits.elim
  | .ended _, [] => exact hfits.1.elim
  | .raised _, [] => exact hfits.choose_spec.elim

/-- A thread that computes has a body, and does not wait for a service. -/
theorem Thread.Fits.of_computes {t : Thread} (hfits : t.Fits) (h : t.computes = true) :
    t.stack ≠ [] ∧ ∀ service releases, t.control ≠ .resume service releases := by
  obtain ⟨control, stack⟩ := t
  constructor
  · rintro rfl
    cases control with
    | statements | perform => exact hfits.1
    | evaluate | recheck | clear => exact hfits
    | _ => cases h
  · rintro service releases rfl
    cases h

inductive Thread.Rested : Thread → Prop
  | resume (service : ServiceId) (stack : List Frame) : Rested ⟨.resume service true, stack⟩
  | recheck (stack : List Frame) : Rested ⟨.recheck, stack⟩
  | bare {control : Control} (hresume : ∀ service releases, control ≠ .resume service releases)
      (hrecheck : control ≠ .recheck) : Rested ⟨control, []⟩

theorem Thread.Sided.rested {t : Thread} (hsided : t.Sided .worker) (hfits : t.Fits) (hrest : t.control.atRest = true) :
    t.Rested := by
  obtain ⟨control, stack⟩ := t
  cases control with
  | resume service releases =>
    obtain rfl : releases = true := by simpa [Control.isOf] using hsided.control
    exact .resume service stack
  | recheck => exact .recheck stack
  | start | receive | settle _ | finished =>
    obtain rfl : stack = [] := hfits
    exact .bare (by simp) (by simp)
  | _ => cases hrest

namespace Run

variable {r : Run} {d : Desk}

theorem becomeIdle_governor (r : Run) (d : Desk) :
    ∃ waiters, (r.becomeIdle d).1.governor = { r.governor with idle := true, waiters } := by
  unfold becomeIdle
  split
  · rename_i hidle
    exact ⟨r.governor.waiters, by rw [← hidle]⟩
  · exact ⟨[], rfl⟩

theorem handlerFinished_governor (r : Run) (d : Desk) :
    ∃ waiters, (r.handlerFinished d).1.governor = { r.governor with handling := false, idle := true, waiters } :=
  becomeIdle_governor { r with governor := { r.governor with handling := false } } d

/-- A service of the run changes nothing that the governor keeps, but may be the next to wait for idleness. -/
theorem stepService_governor (r : Run) (d : Desk) (service : ServiceId) :
    ∃ waiters, (r.stepService d service).1.governor = { r.governor with waiters } ∧
      ∀ other ∈ waiters, other ∈ r.governor.waiters ∨ other = service ∧ (d.service service).work = .idle := by
  have hsame {r' : Run} (h : r'.governor = r.governor) : ∃ waiters, r'.governor = { r.governor with waiters } ∧
      ∀ other ∈ waiters, other ∈ r.governor.waiters ∨ other = service ∧ (d.service service).work = .idle :=
    ⟨r.governor.waiters, h, fun _ hmem => .inl hmem⟩
  have hcommand (d : Desk) (ticks : Nat) (answer : CommandAnswer) (args : Plain) :
      (r.tickCommand d service ticks answer args).1.governor = r.governor := by
    cases ticks with
    | zero =>
      change (r.answerCommand d service answer args).1.governor = r.governor
      unfold answerCommand
      split
      · split <;> rfl
      · rfl
    | succ left => rfl
  have hbegin (work : Work) (hwork : (d.service service).work = work) :
      ∃ waiters, (r.beginService d service work).1.governor = { r.governor with waiters } ∧
        ∀ other ∈ waiters, other ∈ r.governor.waiters ∨ other = service ∧ (d.service service).work = .idle := by
    cases work with
    | dialog | sleep => exact hsame rfl
    | command name args => exact hsame (hcommand _ _ _ _)
    | request q => exact hsame (hcommand _ _ _ _)
    | idle =>
      simp only [beginService]
      split
      · exact hsame rfl
      · refine ⟨r.governor.waiters ++ [service], rfl, fun other hmem => ?_⟩
        rcases List.mem_append.1 hmem with hmem | hmem
        · exact .inl hmem
        · exact .inr ⟨List.mem_singleton.1 hmem, hwork⟩
    | join =>
      simp only [beginService]
      split <;> exact hsame rfl
  simp only [stepService]
  split
  · exact hsame rfl
  · exact hsame rfl
  · exact hbegin _ rfl
  · exact hsame (hcommand _ _ _ _)
  · exact hsame rfl
  · exact hsame rfl
  · exact hsame rfl

inductive Judged (r : Run) (d : Desk) : Run → Desk → Prop
  | well : Judged r d r d
  | aborted (e : ScriptError) : Judged r d (r.aborted d e).1 (r.aborted d e).2

/-- A handler that has ended has finished; then its worker takes the next event, or is over. -/
theorem leaveHandler_judged (r : Run) (d : Desk) (result : Except Raised Unit) : ∃ r' d', Judged r d r' d' ∧
    (r.leaveHandler d result = .go (r'.handlerFinished d').1 (r'.handlerFinished d').2 .receive [] ∨
      r.leaveHandler d result = (r'.handlerFinished d').1.retire (r'.handlerFinished d').2) := by
  unfold leaveHandler
  split
  · exact ⟨r, d, .well, .inl rfl⟩
  · split
    · exact ⟨r, d, .well, .inl rfl⟩
    · exact ⟨_, _, .aborted _, .inl rfl⟩
  · exact ⟨_, _, .aborted _, .inl rfl⟩
  · exact ⟨r, d, .well, .inr rfl⟩
  · exact ⟨r, d, .well, .inr rfl⟩

theorem close_governor (r : Run) (d : Desk) (ending : Ending) :
    (r.close d ending).run.governor = { r.governor with cancelled := true } :=
  cancelWorker_governor _ _

end Run

end DeskScript
