import DeskScript.Proofs.Machine.Atomicity
import DeskScript.Proofs.Machine.Settling

set_option autoImplicit false

/-!
# Errors that stop a run

Exhausted budgets, cancellation and the failure of a handler leave everything around them, block by block and call by call,
and nothing else happens until they have left. Then they are the error of the run, or abort it: `fatal_errors_escape`.
-/

namespace DeskScript

namespace Raised

def isResource : Raised → Bool
  | .error e =>
    match e.cause.category with
    | .loopLimit | .timeout | .callDepth => true
    | _ => false
  | .abort _ | .fault _ | .interrupted => false

def isFatal : Raised → Bool
  | .error e => isResource (.error e) || e.cause.category == .cancelled
  | .abort _ => true
  | .fault _ | .interrupted => false

def fails : Raised → Bool
  | .error e => e.cause.category ≠ .cancelled
  | .abort _ => true
  | .fault _ | .interrupted => false

def error? : Raised → Option ScriptError
  | .error e | .abort e => some e
  | .fault _ | .interrupted => none

theorem passes_of_isFatal {e : Raised} (h : e.isFatal = true) : e.passes = true := by
  cases e with
  | error e =>
    simp only [isFatal, isResource] at h
    simp only [passes]
    generalize e.cause.category = category at h
    cases category with
    | loopLimit | timeout | callDepth | cancelled | syntactic => rfl
    | _ => cases h
  | abort e => rfl
  | fault f => cases h
  | interrupted => cases h

theorem fails_of_isResource {e : Raised} (h : e.isResource = true) : e.fails = true := by
  cases e with
  | error e =>
    refine decide_eq_true fun hcategory => ?_
    simp only [isResource, hcategory] at h
    cases h
  | _ => cases h

/-- The same error, to which a place was attached if it had none. -/
inductive Located : Raised → Raised → Prop
  | same (e : Raised) : Located e e
  | error (e : ScriptError) (span : Span) (line : Option String) (h : e.span = none) :
      Located (.error e) (.error { e with span := some span, sourceLine := line })
  | abort (e : ScriptError) (span : Span) (line : Option String) (h : e.span = none) :
      Located (.abort e) (.abort { e with span := some span, sourceLine := line })

theorem Located.trans {e e' e'' : Raised} (h : e.Located e') (h' : e'.Located e'') : e.Located e'' := by
  cases h with
  | same => exact h'
  | error e span line hnone =>
    cases h' with
    | same => exact .error e span line hnone
    | error _ _ _ hsome => cases hsome
  | abort e span line hnone =>
    cases h' with
    | same => exact .abort e span line hnone
    | abort _ _ _ hsome => cases hsome

theorem Located.passes {e e' : Raised} (h : e.Located e') : e'.passes = e.passes := by
  cases h with
  | same | error | abort => rfl

theorem Located.isFatal {e e' : Raised} (h : e.Located e') : e'.isFatal = e.isFatal := by
  cases h with
  | same | error | abort => rfl

theorem Located.isResource {e e' : Raised} (h : e.Located e') : e'.isResource = e.isResource := by
  cases h with
  | same | error | abort => rfl

theorem Located.fails {e e' : Raised} (h : e.Located e') : e'.fails = e.fails := by
  cases h with
  | same | error | abort => rfl

end Raised

def Ending.error? : Ending → Option ScriptError
  | .failed e | .cancelled e => some e
  | .completed _ | .broken _ => none

theorem Stacked.split_ground {need : Need} {stack : List Frame} (h : Stacked need stack) :
    ∃ frames ground, stack = frames ++ [ground] ∧ ground.isGround = true ∧ ∀ frame ∈ frames, frame.isGround = false := by
  induction stack generalizing need with
  | nil => exact h.elim
  | cons frame rest ih =>
    obtain ⟨-, -, hbelow⟩ := h
    cases hgives : frame.gives with
    | none =>
      rw [hgives] at hbelow
      obtain rfl : rest = [] := hbelow
      refine ⟨[], frame, rfl, ?_, List.forall_mem_nil _⟩
      cases frame <;> first | rfl | cases hgives
    | some given =>
      rw [hgives] at hbelow
      obtain ⟨frames, ground, rfl, hground, hframes⟩ := ih hbelow
      refine ⟨frame :: frames, ground, rfl, hground, List.forall_mem_cons.2 ⟨?_, hframes⟩⟩
      cases frame <;> first | rfl | cases hgives

namespace Run

variable {r : Run} {d : Desk} {stack : List Frame}

theorem endingOf_error {e : Raised} (h : e.isFatal = true) : (endingOf e).error? = e.error? := by
  cases e with
  | error e =>
    simp only [endingOf]
    split <;> rfl
  | abort e => rfl
  | fault f => cases h
  | interrupted => cases h

theorem locate_cases (r : Run) (span : Span) (e : ScriptError) : r.locate span e = e ∨
    e.span = none ∧ ∃ line, r.locate span e = { e with span := some span, sourceLine := line } := by
  unfold locate
  split
  · exact .inl rfl
  · unfold ScriptError.locate
    split
    · exact .inl rfl
    · rename_i hnone
      exact .inr ⟨hnone, _, rfl⟩

/-- An error that is not caught leaves a frame as it is, but for its place, and a call is over. -/
theorem unwind_leaves {e : Raised} (hpasses : e.passes = true) {frame : Frame} (hground : frame.isGround = false)
    (r : Run) (d : Desk) (stack : List Frame) : ∃ e' depth, e.Located e' ∧
      r.unwind d e stack frame = .raise { r with callDepth := depth } d e' stack := by
  cases frame with
  | located span =>
    cases e with
    | error e =>
      refine ⟨.error (r.locate span e), r.callDepth, ?_, rfl⟩
      rcases r.locate_cases span e with hsame | ⟨hnone, line, hlocated⟩
      · rw [hsame]
        exact .same _
      · rw [hlocated]
        exact .error e span line hnone
    | abort e =>
      refine ⟨.abort (r.locate span e), r.callDepth, ?_, rfl⟩
      rcases r.locate_cases span e with hsame | ⟨hnone, line, hlocated⟩
      · rw [hsame]
        exact .same _
      · rw [hlocated]
        exact .abort e span line hnone
    | fault f => exact ⟨.fault f, r.callDepth, .same _, rfl⟩
    | interrupted => exact ⟨.interrupted, r.callDepth, .same _, rfl⟩
  | attempt catchBlock errorVar scope =>
    refine ⟨e, r.callDepth, .same e, ?_⟩
    cases e with
    | error e =>
      have hnot : ¬e.cause.category.catchable = true := Bool.eq_false_iff.1 (Raised.uncaught_of_passes hpasses)
      exact if_neg hnot
    | abort e => rfl
    | fault f => rfl
    | interrupted => rfl
  | call name =>
    refine ⟨e, r.callDepth - 1, .same e, ?_⟩
    simp only [unwind]
    split
    · cases hpasses
    · rfl
  | handler | program | closing => cases hground
  | _ => exact ⟨e, r.callDepth, .same e, rfl⟩

/-- A handler that fails aborts its run; the first failure counts, and none after cancellation. -/
theorem leaveHandler_aborts {e : Raised} (hfails : e.fails = true) {error : ScriptError} (herror : e.error? = some error)
    (r : Run) (d : Desk) : (r.leaveHandler d (.error e)).run.governor.aborted =
      if r.governor.cancelled then r.governor.aborted else r.governor.aborted.or (some error) := by
  obtain ⟨waiters, hgovernor⟩ := (r.aborted d error).1.handlerFinished_governor (r.aborted d error).2
  cases e with
  | error e =>
    cases herror
    have hnot : ¬error.cause.category = .cancelled := of_decide_eq_true hfails
    simp only [leaveHandler, if_neg hnot]
    exact congrArg Governor.aborted hgovernor
  | abort e =>
    cases herror
    exact congrArg Governor.aborted hgovernor
  | fault f => cases hfails
  | interrupted => cases hfails

end Run

namespace Moment

variable {m n : Moment} {id : RunId} {side : Side} {w : World} {r : Run} {d : Desk} {e : Raised}
  {frames stack : List Frame}

theorem follow_after (m : Moment) (k : Nat) : m.follow.after k = m.after (k + 1) := by
  induction k with
  | zero => rfl
  | succ k ih => exact congrArg follow ih

theorem Move.eq_follow {s : Step} (hgo : s.pace = .go) (hn : Move (within w id side s) n) :
    n = (within w id side s).follow := by
  cases hn with
  | next hn =>
    cases hn with
    | step _ => exact (if_pos hgo).symm
    | rest hpace => exact absurd hgo hpace

/-- While a thread goes on within its slice, nothing else moves. -/
theorem Moves.after_or {k : Nat} (hgo : ∀ j < k, ∃ w id side s, m.after j = within w id side s ∧ s.pace = .go) (hn : Moves m n) :
    (∃ j < k, n = m.after j) ∨ Moves (m.after k) n := by
  induction hn with
  | refl =>
    cases k with
    | zero => exact .inr (.refl m)
    | succ k => exact .inl ⟨0, Nat.succ_pos k, rfl⟩
  | @move n o _ hn ih =>
    rcases ih with ⟨j, hj, rfl⟩ | hmoves
    · obtain ⟨w, id, side, s, hwithin, hpace⟩ := hgo j hj
      have hnext : o = m.after (j + 1) := by
        rw [hwithin] at hn
        rw [hn.eq_follow hpace, ← hwithin]
        rfl
      rcases Nat.lt_or_eq_of_le (Nat.succ_le_of_lt hj) with hlt | rfl
      · exact .inl ⟨j + 1, hlt, hnext⟩
      · rw [hnext]
        exact .inr (.refl _)
    · exact .inr (hmoves.move hn)

theorem Sound.within_of_inner (hm : m.Sound) (hinner : (m.thread id side).control.atRest = false) :
    ∃ w s, m = within w id side s ∧ s.pace = .go := by
  cases m with
  | resting w => cases ((hm.runs id).rests side).symm.trans hinner
  | within w active working s =>
    obtain ⟨hw, hs, -, hother⟩ := hm
    simp only [Moment.thread] at hinner
    split at hinner
    · rename_i hactive
      subst hactive
      split at hinner
      · rename_i hside
        subst hside
        by_cases hpace : s.pace = .go
        · exact ⟨w, s, rfl, hpace⟩
        · cases (hs.rests hpace).symm.trans hinner
      · rename_i hside
        obtain rfl : side = working.other := by cases side <;> cases working <;> first | rfl | exact absurd rfl hside
        cases hother.symm.trans hinner
    · cases ((hw.runs id).rests side).symm.trans hinner

theorem follow_raised (frame : Frame) : (within w id side (.raise r d e (frame :: stack))).follow =
    within w id side (r.unwind d e stack frame) := rfl

/-- An error that is not caught leaves the frames above the ground, one with each move. -/
theorem after_raised (hframes : ∀ frame ∈ frames, frame.isGround = false) (hpasses : e.passes = true) :
    ∃ e' depth, e.Located e' ∧ (within w id side (.raise r d e (frames ++ stack))).after frames.length =
      within w id side (.raise { r with callDepth := depth } d e' stack) := by
  induction frames generalizing r e with
  | nil => exact ⟨e, r.callDepth, .same e, rfl⟩
  | cons frame frames ih =>
    obtain ⟨hframe, hframes⟩ := List.forall_mem_cons.1 hframes
    obtain ⟨e₁, depth₁, hlocated, hunwind⟩ := Run.unwind_leaves hpasses hframe r d (frames ++ stack)
    obtain ⟨e₂, depth₂, hlocated', hafter⟩ :=
      @ih { r with callDepth := depth₁ } e₁ hframes (hlocated.passes.trans hpasses)
    refine ⟨e₂, depth₂, hlocated.trans hlocated', ?_⟩
    rw [List.length_cons, ← follow_after, List.cons_append, follow_raised, hunwind]
    exact hafter

theorem after_raised_take (hframes : ∀ frame ∈ frames, frame.isGround = false) (hpasses : e.passes = true) {k : Nat}
    (hk : k ≤ frames.length) : ∃ e' depth, e.Located e' ∧ (within w id side (.raise r d e (frames ++ stack))).after k =
      within w id side (.raise { r with callDepth := depth } d e' ((frames ++ stack).drop k)) := by
  have hlength : (frames.take k).length = k := List.length_take_of_le hk
  have hsplit : frames ++ stack = frames.take k ++ (frames ++ stack).drop k := by
    rw [List.drop_append_of_le_length hk, ← List.append_assoc, List.take_append_drop]
  have hafter := @after_raised id side w r d e (frames.take k) ((frames ++ stack).drop k)
    (fun frame hmem => hframes frame (List.mem_of_mem_take hmem)) hpasses
  rwa [← hsplit, hlength] at hafter

/-- Where an error is in flight: within a slice, above the ground of its stack. -/
theorem Possible.raised (hm : Possible m) (hid : id < m.size) (hthread : m.thread id side = ⟨.raised e, stack⟩) :
    ∃ w frames ground, m = within w id side (.raise (m.run id) m.desk e stack) ∧ stack = frames ++ [ground] ∧
      ground.isGround = true ∧ ground.isOf side = true ∧ ∀ frame ∈ frames, frame.isGround = false := by
  have hfits := hm.sound.thread id side
  have hsided := hm.attended.sided hid side
  rw [hthread] at hfits hsided
  obtain ⟨need, hstacked⟩ := hfits
  obtain ⟨frames, ground, hstack, hground, hframes⟩ := hstacked.split_ground
  have hof : ground.isOf side = true := by
    refine hsided.frames ground ?_
    rw [hstack]
    exact List.mem_append_right _ List.mem_cons_self
  have hinner : (m.thread id side).control.atRest = false := by
    rw [hthread]
    rfl
  obtain ⟨w, ⟨r, d, t, pace⟩, rfl, hpace⟩ := hm.sound.within_of_inner hinner
  have hat := at_within w id side ⟨r, d, t, pace⟩
  obtain rfl : t = ⟨.raised e, stack⟩ := hat.thread.symm.trans hthread
  obtain rfl : pace = .go := hpace
  refine ⟨w, frames, ground, ?_, hstack, hground, hof, hframes⟩
  rw [hat.run]
  rfl

/-- The error of a main thread at the ground of its stack is what its run settles on. -/
theorem follow_main {frame : Frame} (hground : frame.isGround = true) (hof : frame.isOf .main = true) :
    (within w id .main (.raise r d e [frame])).follow.Settles id (Run.endingOf e) := by
  refine .waits ?_
  cases frame with
  | program | closing => rw [follow_raised, (at_within w id .main _).thread]; rfl
  | handler => cases hof
  | _ => cases hground

/-- An exhausted budget at the ground of a worker's stack aborts its run. -/
theorem follow_worker {frame : Frame} (hground : frame.isGround = true) (hof : frame.isOf .worker = true)
    {error : ScriptError} (hresource : Raised.isResource (.error error) = true) :
    ((within w id .worker (.raise r d (.error error) [frame])).follow.run id).governor.aborted =
      if r.governor.cancelled then r.governor.aborted else r.governor.aborted.or (some error) := by
  cases frame with
  | handler =>
    rw [follow_raised, (at_within w id .worker _).run]
    exact Run.leaveHandler_aborts (Raised.fails_of_isResource hresource) rfl r d
  | program | closing => cases hof
  | _ => cases hground

end Moment

/-- In every interleaving, an exhausted budget, a cancellation or the failure of a handler leaves all that is around it: one
frame with each move, with nothing between that changes the host or the run but for the depth of its calls, and always as
the same error. Raised in the body of a program, it is then the error of the run and there is no other; an exhausted budget
in a handler aborts the run for good, unless the run was cancelled or aborted before. -/
theorem fatal_errors_escape {m : Moment} (hm : m.Possible) {id : RunId} (hid : id < m.size) {side : Side} {e : Raised}
    {stack : List Frame} (hthread : m.thread id side = ⟨.raised e, stack⟩) (hfatal : e.isFatal = true) :
    (∀ k < stack.length, ∃ e' depth, e.Located e' ∧ (m.after k).thread id side = ⟨.raised e', stack.drop k⟩ ∧
      (m.after k).run id = { m.run id with callDepth := depth } ∧ (m.after k).desk = m.desk) ∧
    (∀ n, m.Moves n → (∃ k < stack.length, n = m.after k) ∨ (m.after stack.length).Moves n) ∧
    ∃ e', e.Located e' ∧
      (side = .main → ∃ ending, ending.error? = e'.error? ∧
        ∀ n, (m.after stack.length).Moves n → n.Settles id ending) ∧
      (side = .worker → e.isResource = true →
        (((m.run id).governor.cancelled = true ∨ (m.run id).governor.aborted.isSome = true) →
          ((m.after stack.length).run id).governor.aborted = (m.run id).governor.aborted) ∧
        ((m.run id).governor.cancelled = false → (m.run id).governor.aborted = none →
          ∀ n, (m.after stack.length).Moves n → (n.run id).governor.aborted = e'.error?)) := by
  have hpasses := Raised.passes_of_isFatal hfatal
  obtain ⟨w, frames, ground, hwithin, rfl, hground, hof, hframes⟩ := hm.raised hid hthread
  have hlength : (frames ++ [ground]).length = frames.length + 1 := by rw [List.length_append, List.length_singleton]
  have hafter {k : Nat} (hk : k ≤ frames.length) : ∃ e' depth, e.Located e' ∧ m.after k = .within w id side
      (.raise { m.run id with callDepth := depth } m.desk e' ((frames ++ [ground]).drop k)) := by
    have htake := @Moment.after_raised_take id side w (m.run id) m.desk e frames [ground] hframes hpasses k hk
    rwa [← hwithin] at htake
  refine ⟨fun k hk => ?_, fun n hn => hn.after_or fun k hk => ?_, ?_⟩
  · obtain ⟨e', depth, hlocated, hmoment⟩ := hafter (Nat.le_of_lt_succ (Nat.lt_of_lt_of_eq hk hlength))
    have hat := Moment.at_within w id side
      (.raise { m.run id with callDepth := depth } m.desk e' ((frames ++ [ground]).drop k))
    rw [hmoment]
    exact ⟨e', depth, hlocated, hat.thread, hat.run, hat.desk⟩
  · obtain ⟨e', depth, -, hmoment⟩ := hafter (Nat.le_of_lt_succ (Nat.lt_of_lt_of_eq hk hlength))
    exact ⟨w, id, side, _, hmoment, rfl⟩
  · obtain ⟨e', depth, hlocated, hmoment⟩ := hafter (Nat.le_refl frames.length)
    rw [List.drop_left] at hmoment
    have hmoves := m.moves_after (frames ++ [ground]).length
    have hpossible := hm.moves hmoves
    have hsize := Nat.lt_of_lt_of_le hid hmoves.size
    have hlast : m.after (frames ++ [ground]).length = (m.after frames.length).follow := by
      rw [hlength]
      rfl
    rw [hmoment] at hlast
    refine ⟨e', hlocated, fun hside => ?_, fun hside hresource => ?_⟩
    · subst hside
      have hsettles := @Moment.follow_main id w { m.run id with callDepth := depth } m.desk e' ground hground hof
      rw [← hlast] at hsettles
      exact ⟨Run.endingOf e', Run.endingOf_error (hlocated.isFatal.trans hfatal), fun n hn => hsettles.moves hpossible hsize hn⟩
    · subst hside
      rw [← hlocated.isResource] at hresource
      cases e' with
      | error error =>
        have haborted := @Moment.follow_worker id w { m.run id with callDepth := depth } m.desk ground hground hof error hresource
        rw [← hlast] at haborted
        refine ⟨fun hbefore => ?_, fun hcancelled hnone n hn => ?_⟩
        · rw [haborted]
          rcases hbefore with hcancelled | hsome
          · exact if_pos hcancelled
          · obtain ⟨first, hfirst⟩ := Option.isSome_iff_exists.1 hsome
            simp only [hfirst]
            split <;> rfl
        · refine (hn.firm hpossible hsize).aborted error ?_
          rw [haborted]
          simp only [hcancelled, hnone]
          rfl
      | _ => cases hresource

namespace Trying

/-- The tokens of `try {while true {}} catch {print "a"}`, without places. -/
def tokens : List Token :=
  [.keyword .tryWord, .symbol .leftBrace, .keyword .whileWord, .keyword .trueWord, .symbol .leftBrace, .symbol .rightBrace,
    .symbol .rightBrace, .keyword .catchWord, .symbol .leftBrace, .keyword .print, .text "a", .symbol .rightBrace,
    .finish].map fun content => ⟨content, "", default⟩

def loop : Stmt := .conditional default ⟨default, []⟩ (.literal default (.bool true))

def catchBlock : Block Stmt := ⟨default, [Again.print]⟩

def program : Program := ⟨default, [.attempt default ⟨default, [loop]⟩ catchBlock none], #[]⟩

def world : World := ({} : World).launch "script" program { maxLoopIterations := 0 } 0 {} .root

theorem world_reachable : (Moment.resting world).Reachable :=
  Moment.launched_reachable tokens rfl (by simp)

def moment : Moment := (Moment.resting world).after 16

theorem moment_possible : moment.Possible := (Moment.after_reachable world_reachable 16).possible

theorem moment_size : 0 < moment.size := by decide +kernel

def exceeded : Raised := .error { cause := .loopLimit 0 }

def stack : List Frame :=
  [.located default, .following [] 1, .attempt catchBlock none 0, .located default, .following [] 0, .program]

theorem moment_thread : moment.thread 0 .main = ⟨.raised exceeded, stack⟩ := rfl

end Trying

/-- The limit of this loop is exceeded within a block that has a block for its errors, and it ends the run. -/
theorem fatal_errors_escape_trying : Trying.moment.Possible ∧ 0 < Trying.moment.size ∧
    Trying.moment.thread 0 .main = ⟨.raised Trying.exceeded, Trying.stack⟩ ∧ Trying.exceeded.isFatal = true ∧
    ∃ e', Trying.exceeded.Located e' ∧ ∃ ending, ending.error? = e'.error? ∧
      ∀ n, (Trying.moment.after 6).Moves n → n.Settles 0 ending := by
  obtain ⟨-, -, e', hlocated, hmain, -⟩ :=
    fatal_errors_escape Trying.moment_possible Trying.moment_size Trying.moment_thread rfl
  exact ⟨Trying.moment_possible, Trying.moment_size, Trying.moment_thread, rfl, e', hlocated, hmain rfl⟩

end DeskScript
