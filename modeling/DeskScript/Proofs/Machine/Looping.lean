import DeskScript.Proofs.Machine.Stacking

set_option autoImplicit false

/-!
# How often loops turn

A loop with a condition counts its turns in the frame that it keeps right above what was there before it. Whatever its body
and its condition put on top, they never change that count. Main statement: `loops_stop`.
-/

namespace DeskScript

structure Looping where
  id : RunId
  side : Side
  body : Block Stmt
  condition : Expr
  scope : ScopeId
  base : List Frame

namespace Looping

variable (l : Looping)

def turn (i : Nat) : Frame := .turn (.conditional i l.condition) l.body l.scope

def test (i : Nat) : Frame := .test i l.condition l.body l.scope

def round (i : Nat) : Frame := .round (.conditional i l.condition) l.body l.scope

def Begins (m : Moment) : Prop :=
  ∃ span, m.thread l.id l.side = ⟨.perform (.conditional span l.body l.condition) l.scope, l.base⟩

def Finds (truth : Bool) (m : Moment) : Prop :=
  ∃ i v, m.thread l.id l.side = ⟨.value v, l.test i :: l.base⟩ ∧ (m.run l.id).heap.truthy v = truth

def InBody (m : Moment) : Prop := ∃ i, l.round i :: l.base <:+ (m.thread l.id l.side).stack

def IsOver (m : Moment) : Prop := (m.thread l.id l.side).IsOver l.base

/-- The loop exceeds its limit. Another loop that does so within it raises its error first, and that error then leaves. -/
def Exceeds (m n : Moment) : Prop :=
  (∀ e, (m.thread l.id l.side).control ≠ .raised e) ∧ n.thread l.id l.side =
    ⟨.raised (.error { cause := .loopLimit (m.run l.id).limits.maxLoopIterations }), l.base⟩

def limit (m : Moment) : Nat := (m.run l.id).limits.maxLoopIterations.toNat

open Classical in
/-- Moves since the loop began, up to its end at most: how often its condition was found true, and how often its body was
entered. -/
inductive Reaches (m : Moment) : Nat → Nat → Moment → Prop
  | refl : Reaches m 0 0 m
  | move {trues turns : Nat} {n o : Moment} (hn : Reaches m trues turns n) (hover : ¬l.IsOver n) (hmove : n.Move o) :
      Reaches m (trues + if l.Finds true o then 1 else 0) (turns + if ¬l.InBody n ∧ l.InBody o then 1 else 0) o

/-- Where a loop stands that has found its condition true and turned so many times. -/
inductive Stage (trues turns : Nat) (m : Moment) : Prop
  | begins (htrues : trues = 0) (hturns : turns = 0) (h : l.Begins m)
  | before (htrues : trues = turns) (hstack : l.turn turns :: l.base <:+ (m.thread l.id l.side).stack)
  | tests (htrues : l.Finds true m ∧ trues = turns + 1 ∨ ¬l.Finds true m ∧ trues = turns)
      (hstack : l.test turns :: l.base <:+ (m.thread l.id l.side).stack)
  | inside (htrues : trues = turns) (hstack : l.round turns :: l.base <:+ (m.thread l.id l.side).stack)
  | past (h : l.IsOver m)

variable {l} {m n o : Moment} {trues turns i : Nat} {frame : Frame}

theorem top_unique {f g : Frame} {base stack : List Frame} (hf : f :: base <:+ stack) (hg : g :: base <:+ stack) :
    f = g := by
  have heq := (List.suffix_of_suffix_length_le hf hg (Nat.le_refl _)).eq_of_length rfl
  exact (List.cons.inj heq).1

theorem not_inBody (hstack : frame :: l.base <:+ (m.thread l.id l.side).stack) (hne : ∀ i, frame ≠ l.round i) :
    ¬l.InBody m := by
  rintro ⟨i, hround⟩
  exact hne i (top_unique hstack hround)

theorem not_finds (hstack : frame :: l.base <:+ (m.thread l.id l.side).stack) (hne : ∀ i, frame ≠ l.test i) (truth : Bool) :
    ¬l.Finds truth m := by
  rintro ⟨i, v, hthread, -⟩
  rw [hthread] at hstack
  exact hne i (top_unique hstack (List.suffix_refl _))

theorem not_isOver (hstack : frame :: l.base <:+ (m.thread l.id l.side).stack) : ¬l.IsOver m := by
  rintro ⟨hbase, -⟩
  have hlength := hstack.length_le
  rw [hbase, List.length_cons] at hlength
  omega

theorem IsOver.not_inBody (h : l.IsOver m) : ¬l.InBody m := fun ⟨_, hround⟩ => not_isOver hround h

theorem IsOver.not_finds (h : l.IsOver m) (truth : Bool) : ¬l.Finds truth m := by
  rintro ⟨i, v, hthread, -⟩
  have hstack : l.test i :: l.base <:+ (m.thread l.id l.side).stack := by
    simp only [hthread, List.suffix_refl]
  exact not_isOver hstack h

/-- The frame above `base` stays, unless it is given what it waits for, or an error. -/
theorem kept_or_given (hn : n.Move o) (hnp : n.Possible) (hid : l.id < n.size)
    (hstack : frame :: l.base <:+ (n.thread l.id l.side).stack) :
    (frame :: l.base <:+ (o.thread l.id l.side).stack ∧ ∀ v, n.thread l.id l.side ≠ ⟨.value v, frame :: l.base⟩) ∨
    ∃ control, n.thread l.id l.side = ⟨control, frame :: l.base⟩ ∧
      ((∃ e, control = .raised e) ∨ control.meets frame.need = true) ∧
      o.thread l.id l.side = (Run.step l.side (n.run l.id) n.desk ⟨control, frame :: l.base⟩).thread := by
  by_cases hgiven : (n.thread l.id l.side).stack = frame :: l.base ∧ (n.thread l.id l.side).control.isGiven = true
  · obtain ⟨htop, hgiven⟩ := hgiven
    have hinner : (n.thread l.id l.side).control.atRest = false := by
      cases hcontrol : (n.thread l.id l.side).control <;> rw [hcontrol] at hgiven <;> first | rfl | cases hgiven
    have hmeets := (hnp.sound.thread l.id l.side).meets htop hgiven
    have hat := hn.inner hnp.sound hinner
    refine .inr ⟨(n.thread l.id l.side).control, ?_, hmeets, ?_⟩
    · rw [← htop]
    · rw [hat.thread, ← htop]
  · refine .inl ⟨hn.suffix hnp hid hstack fun htop => ?_, fun v hthread => ?_⟩
    · exact Bool.eq_false_iff.2 fun h => hgiven ⟨htop, h⟩
    · rw [hthread] at hgiven
      exact hgiven ⟨rfl, rfl⟩

theorem next_of_inner {control : Control} {stack : List Frame} (hthread : n.thread l.id l.side = ⟨control, stack⟩)
    (hinner : control.atRest = false) (hn : n.Move o) (hnp : n.Possible) :
    o.thread l.id l.side = (Run.step l.side (n.run l.id) n.desk ⟨control, stack⟩).thread := by
  have hinside : (n.thread l.id l.side).control.atRest = false := by rwa [hthread]
  rw [(hn.inner hnp.sound hinside).thread, hthread]

theorem begins_next (h : l.Begins n) (hn : n.Move o) (hnp : n.Possible) :
    o.thread l.id l.side = ⟨.checkpoint, l.turn 0 :: l.base⟩ := by
  obtain ⟨span, hthread⟩ := h
  exact next_of_inner hthread rfl hn hnp

/-- A condition that has got a value begins the next turn, or ends the loop. -/
theorem finds_next {v : Value} (hthread : n.thread l.id l.side = ⟨.value v, l.test i :: l.base⟩) (hn : n.Move o)
    (hnp : n.Possible) : o.thread l.id l.side = ((n.run l.id).giveValue n.desk v l.base (l.test i)).thread :=
  next_of_inner hthread rfl hn hnp

theorem giveValue_false {r : Run} {d : Desk} {v : Value} (h : r.heap.truthy v = false) :
    (r.giveValue d v l.base (l.test i)).thread = ⟨.ended none, l.base⟩ := by
  simp only [test, Run.giveValue, h]
  rfl

theorem giveValue_full {r : Run} {d : Desk} {v : Value} (h : r.heap.truthy v = true)
    (hfull : (i : Int) ≥ r.limits.maxLoopIterations) : (r.giveValue d v l.base (l.test i)).thread =
      ⟨.raised (.error { cause := .loopLimit r.limits.maxLoopIterations }), l.base⟩ := by
  simp only [test, Run.giveValue, h, if_pos hfull]
  rfl

theorem giveValue_true {r : Run} {d : Desk} {v : Value} (h : r.heap.truthy v = true)
    (hroom : ¬(i : Int) ≥ r.limits.maxLoopIterations) : ∃ scope, (r.giveValue d v l.base (l.test i)).thread =
      ⟨.statements l.body.statements scope, l.round (i + 1) :: l.base⟩ := by
  simp only [test, Run.giveValue, h, if_neg hroom]
  exact ⟨_, rfl⟩

theorem suffix_of_thread {control : Control} (hnext : o.thread l.id l.side = ⟨control, frame :: l.base⟩) :
    frame :: l.base <:+ (o.thread l.id l.side).stack := by
  simp only [hnext, List.suffix_refl]

open Classical in
/-- After a move the loop stands at a stage again, with what is counted by then, and has turned within its limit. -/
def Keeps (l : Looping) (trues turns : Nat) (n o : Moment) : Prop :=
  turns + (if ¬l.InBody n ∧ l.InBody o then 1 else 0) ≤ l.limit n ∧
    l.Stage (trues + if l.Finds true o then 1 else 0) (turns + if ¬l.InBody n ∧ l.InBody o then 1 else 0) o

theorem Stage.keeps (h : l.Stage trues turns o) (hbound : turns ≤ l.limit n) (hfinds : ¬l.Finds true o)
    (hbody : ¬(¬l.InBody n ∧ l.InBody o)) : l.Keeps trues turns n o := by
  unfold Keeps
  rw [if_neg hfinds, if_neg hbody]
  exact ⟨hbound, h⟩

theorem keeps_ended (hbound : turns ≤ l.limit n) {control : Control} (hnext : o.thread l.id l.side = ⟨control, l.base⟩)
    (houtcome : control.isOutcome = true) : l.Keeps trues turns n o := by
  have hisOver : l.IsOver o := by
    rw [IsOver, hnext]
    exact ⟨rfl, houtcome⟩
  exact (Stage.past hisOver).keeps hbound (hisOver.not_finds true) fun hbody => hisOver.not_inBody hbody.2

/-- The frame before a turn stays, or the condition is evaluated. -/
theorem before_keeps (hbound : turns ≤ l.limit n) (hn : n.Move o) (hnp : n.Possible) (hid : l.id < n.size)
    (htrues : trues = turns) (hstack : l.turn turns :: l.base <:+ (n.thread l.id l.side).stack) :
    l.Keeps trues turns n o := by
  rcases kept_or_given hn hnp hid hstack with ⟨hkept, -⟩ | ⟨control, hthread, ⟨e, rfl⟩ | hmeets, hnext⟩
  · exact (Stage.before htrues hkept).keeps hbound (not_finds hkept nofun true)
      fun hbody => not_inBody hkept nofun hbody.2
  · exact keeps_ended hbound hnext rfl
  · cases control with
    | passed =>
      have hnext : o.thread l.id l.side = ⟨.evaluate l.condition l.scope, l.test turns :: l.base⟩ := hnext
      have htests := suffix_of_thread hnext
      have hfinds : ¬l.Finds true o := by
        rintro ⟨i, v, hthread, -⟩
        cases hnext.symm.trans hthread
      exact (Stage.tests (.inr ⟨hfinds, htrues⟩) htests).keeps hbound hfinds fun hbody => not_inBody htests nofun hbody.2
    | _ => cases hmeets

/-- The condition has got a value: the loop ends, exceeds its limit, or enters its body. -/
theorem found_keeps (hbound : turns ≤ l.limit n) (hn : n.Move o) (hnp : n.Possible) {v : Value}
    (htrues : l.Finds true n ∧ trues = turns + 1 ∨ ¬l.Finds true n ∧ trues = turns)
    (hthread : n.thread l.id l.side = ⟨.value v, l.test turns :: l.base⟩) : l.Keeps trues turns n o := by
  have hnext := finds_next hthread hn hnp
  cases htruth : (n.run l.id).heap.truthy v with
  | false =>
    rw [giveValue_false htruth] at hnext
    exact keeps_ended hbound hnext rfl
  | true =>
    by_cases hfull : (turns : Int) ≥ (n.run l.id).limits.maxLoopIterations
    · rw [giveValue_full htruth hfull] at hnext
      exact keeps_ended hbound hnext rfl
    · obtain ⟨scope, hbody⟩ := giveValue_true (l := l) (d := n.desk) htruth hfull
      rw [hbody] at hnext
      have hround := suffix_of_thread hnext
      have htrues : trues = turns + 1 := by
        rcases htrues with ⟨-, htrues⟩ | ⟨hnot, -⟩
        · exact htrues
        · exact absurd ⟨turns, v, hthread, htruth⟩ hnot
      have hbefore : ¬l.InBody n := not_inBody (suffix_of_thread hthread) nofun
      unfold Keeps
      rw [if_neg (not_finds hround nofun true), if_pos ⟨hbefore, _, hround⟩]
      refine ⟨?_, .inside htrues hround⟩
      unfold limit
      omega

theorem tests_keeps (hbound : turns ≤ l.limit n) (hn : n.Move o) (hnp : n.Possible) (hid : l.id < n.size)
    (htrues : l.Finds true n ∧ trues = turns + 1 ∨ ¬l.Finds true n ∧ trues = turns)
    (hstack : l.test turns :: l.base <:+ (n.thread l.id l.side).stack) : l.Keeps trues turns n o := by
  rcases kept_or_given hn hnp hid hstack with ⟨hkept, hnone⟩ | ⟨control, hthread, ⟨e, rfl⟩ | hmeets, hnext⟩
  · have hbody : ¬(¬l.InBody n ∧ l.InBody o) := fun hbody => not_inBody hkept nofun hbody.2
    rcases htrues with ⟨⟨i, v, hthread, -⟩, -⟩ | ⟨-, htrues⟩
    · rw [hthread] at hstack
      exact absurd (top_unique hstack (List.suffix_refl _) ▸ hthread) (hnone v)
    · by_cases hfinds : l.Finds true o
      · unfold Keeps
        rw [if_pos hfinds, if_neg hbody]
        exact ⟨hbound, .tests (.inl ⟨hfinds, congrArg (· + 1) htrues⟩) hkept⟩
      · exact (Stage.tests (.inr ⟨hfinds, htrues⟩) hkept).keeps hbound hfinds hbody
  · exact keeps_ended hbound hnext rfl
  · cases control with
    | value v => exact found_keeps hbound hn hnp htrues hthread
    | _ => cases hmeets

/-- The body goes on, or it ends, and with it the loop or just the turn. -/
theorem inside_keeps (hbound : turns ≤ l.limit n) (hn : n.Move o) (hnp : n.Possible) (hid : l.id < n.size)
    (htrues : trues = turns) (hstack : l.round turns :: l.base <:+ (n.thread l.id l.side).stack) :
    l.Keeps trues turns n o := by
  have hinside : l.InBody n := ⟨_, hstack⟩
  have hentered : ¬(¬l.InBody n ∧ l.InBody o) := fun hbody => hbody.1 hinside
  rcases kept_or_given hn hnp hid hstack with ⟨hkept, -⟩ | ⟨control, hthread, ⟨e, rfl⟩ | hmeets, hnext⟩
  · exact (Stage.inside htrues hkept).keeps hbound (not_finds hkept nofun true) hentered
  · exact keeps_ended hbound hnext rfl
  · have hagain (hnext : o.thread l.id l.side = ⟨.checkpoint, l.turn turns :: l.base⟩) : l.Keeps trues turns n o :=
      (Stage.before htrues (suffix_of_thread hnext)).keeps hbound (not_finds (suffix_of_thread hnext) nofun true) hentered
    cases control with
    | ended signal =>
      match signal with
      | none | some .skip => exact hagain hnext
      | some .leave | some (.back v) => exact keeps_ended hbound hnext rfl
    | _ => cases hmeets

theorem Stage.move (h : l.Stage trues turns n) (hbound : turns ≤ l.limit n) (hn : n.Move o) (hnp : n.Possible)
    (hid : l.id < n.size) (hover : ¬l.IsOver n) : l.Keeps trues turns n o := by
  cases h with
  | begins htrues hturns h =>
    have hstack := suffix_of_thread (begins_next h hn hnp)
    subst hturns
    exact (Stage.before htrues hstack).keeps hbound (not_finds hstack nofun true)
      fun hbody => not_inBody hstack nofun hbody.2
  | before htrues hstack => exact before_keeps hbound hn hnp hid htrues hstack
  | tests htrues hstack => exact tests_keeps hbound hn hnp hid htrues hstack
  | inside htrues hstack => exact inside_keeps hbound hn hnp hid htrues hstack
  | past h => exact absurd h hover

theorem Stage.finds (h : l.Stage trues turns n) (hfinds : l.Finds true n) : trues = turns + 1 ∧
    ∃ v, n.thread l.id l.side = ⟨.value v, l.test turns :: l.base⟩ ∧ (n.run l.id).heap.truthy v = true := by
  cases h with
  | begins _ _ h =>
    obtain ⟨span, hbegins⟩ := h
    obtain ⟨i, v, hthread, -⟩ := hfinds
    cases hbegins.symm.trans hthread
  | before _ hstack | inside _ hstack => exact absurd hfinds (not_finds hstack nofun true)
  | tests htrues hstack =>
    refine ⟨htrues.elim And.right fun hnot => absurd hfinds hnot.1, ?_⟩
    obtain ⟨i, v, hthread, htruth⟩ := hfinds
    rw [hthread] at hstack
    exact ⟨v, top_unique hstack (List.suffix_refl _) ▸ hthread, htruth⟩
  | past h => exact absurd hfinds (h.not_finds true)

theorem Stage.finds_of_exceeds (h : l.Stage trues turns n) (hn : n.Move o) (hnp : n.Possible) (hid : l.id < n.size)
    (hover : ¬l.IsOver n) (hexceeds : l.Exceeds n o) : l.Finds true n := by
  obtain ⟨hnot, hraised⟩ := hexceeds
  have hisOver : l.IsOver o := by
    rw [IsOver, hraised]
    exact ⟨rfl, rfl⟩
  have hgiven {frame : Frame} (hstack : frame :: l.base <:+ (n.thread l.id l.side).stack) :
      ∃ control, n.thread l.id l.side = ⟨control, frame :: l.base⟩ ∧ control.meets frame.need = true ∧
        o.thread l.id l.side = (Run.step l.side (n.run l.id) n.desk ⟨control, frame :: l.base⟩).thread := by
    rcases kept_or_given hn hnp hid hstack with ⟨hkept, -⟩ | ⟨control, hthread, ⟨e, rfl⟩ | hmeets, hnext⟩
    · exact absurd hisOver (not_isOver hkept)
    · rw [hthread] at hnot
      exact absurd rfl (hnot e)
    · exact ⟨control, hthread, hmeets, hnext⟩
  cases h with
  | begins _ _ h => cases (begins_next h hn hnp).symm.trans hraised
  | before _ hstack =>
    obtain ⟨control, -, hmeets, hnext⟩ := hgiven hstack
    cases control with
    | passed => cases hnext.symm.trans hraised
    | _ => cases hmeets
  | tests _ hstack =>
    obtain ⟨control, hthread, hmeets, -⟩ := hgiven hstack
    cases control with
    | value v =>
      have hnext := finds_next hthread hn hnp
      cases htruth : (n.run l.id).heap.truthy v with
      | false =>
        rw [giveValue_false htruth] at hnext
        cases hnext.symm.trans hraised
      | true => exact ⟨turns, v, hthread, htruth⟩
    | _ => cases hmeets
  | inside _ hstack =>
    obtain ⟨control, -, hmeets, hnext⟩ := hgiven hstack
    cases control with
    | ended signal =>
      match signal with
      | none | some .skip | some .leave | some (.back v) => cases hnext.symm.trans hraised
    | _ => cases hmeets
  | past h => exact absurd h hover

theorem Reaches.moves (hn : l.Reaches m trues turns n) : m.Moves n := by
  induction hn with
  | refl => exact .refl m
  | move _ _ hmove ih => exact ih.move hmove

/-- Moves that need no choice, up to the end of the loop at most. -/
theorem reaches_after (l : Looping) (m : Moment) {k : Nat} (hover : ∀ j < k, ¬l.IsOver (m.after j)) :
    ∃ trues turns, l.Reaches m trues turns (m.after k) := by
  induction k with
  | zero => exact ⟨0, 0, .refl⟩
  | succ k ih =>
    obtain ⟨trues, turns, hn⟩ := ih fun j hj => hover j (Nat.lt_succ_of_lt hj)
    exact ⟨_, _, hn.move (hover k (Nat.lt_succ_self k)) (.next (Moment.follow_next _))⟩

theorem Reaches.stage (hn : l.Reaches m trues turns n) (hm : m.Possible) (hid : l.id < m.size) (hbegins : l.Begins m) :
    turns ≤ l.limit m ∧ l.Stage trues turns n := by
  induction hn with
  | refl => exact ⟨Nat.zero_le _, .begins rfl rfl hbegins⟩
  | @move trues turns n o hn hover hmove ih =>
    have hnp := hm.moves hn.moves
    have hidn := Nat.lt_of_lt_of_le hid hn.moves.size
    obtain ⟨hbound, hstage⟩ := ih
    have hlimit : l.limit n = l.limit m := by
      unfold Looping.limit
      rw [(hn.moves.terms hm hid).limits]
    rw [← hlimit] at hbound ⊢
    exact hstage.move hbound hmove hnp hidn hover

end Looping

/-- A loop with a condition, from its beginning to its end, in every interleaving: its body is entered no more often than the
limit allows. Where its condition is found true, that is once more than its body was entered before; the loop exceeds its
limit exactly if that is once more than the limit allows, and otherwise begins its body. Where its condition is found false,
the loop ends without a signal. It does not matter what the body and the condition consist of, or what other threads do. -/
theorem loops_stop {m : Moment} (hm : m.Possible) {l : Looping} (hid : l.id < m.size) (hbegins : l.Begins m)
    {trues turns : Nat} {n : Moment} (hn : l.Reaches m trues turns n) :
    turns ≤ l.limit m ∧
    (l.Finds true n → trues = turns + 1) ∧
    ∀ o, n.Move o → ¬l.IsOver n →
      (l.Exceeds n o ↔ l.Finds true n ∧ trues = l.limit m + 1) ∧
      (l.Finds true n → trues ≤ l.limit m →
        ∃ scope, o.thread l.id l.side = ⟨.statements l.body.statements scope, l.round trues :: l.base⟩) ∧
      (l.Finds false n → o.thread l.id l.side = ⟨.ended none, l.base⟩) := by
  have hnp := hm.moves hn.moves
  have hidn := Nat.lt_of_lt_of_le hid hn.moves.size
  obtain ⟨hbound, hstage⟩ := hn.stage hm hid hbegins
  have hlimits := congrArg Limits.maxLoopIterations (hn.moves.terms hm hid).limits
  have hlimit : l.limit m = (n.run l.id).limits.maxLoopIterations.toNat := congrArg Int.toNat hlimits.symm
  refine ⟨hbound, fun hfinds => (hstage.finds hfinds).1, fun o hmove hover => ⟨⟨fun hexceeds => ?_, ?_⟩, ?_, ?_⟩⟩
  · have hfinds := hstage.finds_of_exceeds hmove hnp hidn hover hexceeds
    obtain ⟨htrues, v, hthread, htruth⟩ := hstage.finds hfinds
    refine ⟨hfinds, ?_⟩
    by_cases hfull : (turns : Int) ≥ (n.run l.id).limits.maxLoopIterations
    · omega
    · obtain ⟨scope, hbody⟩ := Looping.giveValue_true (l := l) (d := n.desk) htruth hfull
      rw [← Looping.finds_next hthread hmove hnp] at hbody
      cases hbody.symm.trans hexceeds.2
  · rintro ⟨hfinds, hfull⟩
    obtain ⟨htrues, v, hthread, htruth⟩ := hstage.finds hfinds
    refine ⟨fun e => ?_, ?_⟩
    · rw [hthread]
      exact nofun
    · rw [Looping.finds_next hthread hmove hnp, Looping.giveValue_full htruth (by omega)]
  · intro hfinds hroom
    obtain ⟨htrues, v, hthread, htruth⟩ := hstage.finds hfinds
    obtain ⟨scope, hbody⟩ := Looping.giveValue_true (l := l) (d := n.desk) (i := turns) htruth (by omega)
    rw [Looping.finds_next hthread hmove hnp, hbody, htrues]
    exact ⟨scope, rfl⟩
  · rintro ⟨i, v, hthread, htruth⟩
    rw [Looping.finds_next hthread hmove hnp, Looping.giveValue_false htruth]

namespace Endless

/-- The tokens of `while true {}`, without places. -/
def tokens : List Token :=
  [.keyword .whileWord, .keyword .trueWord, .symbol .leftBrace, .symbol .rightBrace, .finish].map fun content =>
    ⟨content, "", default⟩

def program : Program := ⟨default, [Trying.loop], #[]⟩

def world : World := ({} : World).launch "script" program { maxLoopIterations := 1 } 0 {} .root

theorem world_reachable : (Moment.resting world).Reachable :=
  Moment.launched_reachable tokens rfl (by simp)

def loop : Looping :=
  ⟨0, .main, ⟨default, []⟩, .literal default (.bool true), 0, [.located default, .following [] 0, .program]⟩

def begun : Moment := (Moment.resting world).after 5

theorem begun_possible : begun.Possible := (Moment.after_reachable world_reachable 5).possible

theorem not_isOver_after {j : Nat} (hj : j < 13) : ¬loop.IsOver (begun.after j) := by
  have hopen : ∀ j < 13, ((begun.after j).thread 0 .main).stack.length = 4 ∨
      ((begun.after j).thread 0 .main).control.isOutcome = false := by decide +kernel
  rintro ⟨hstack, houtcome⟩
  rcases hopen j hj with hlength | hnot
  · have hbase : ((begun.after j).thread 0 .main).stack.length = 3 := congrArg List.length hstack
    omega
  · exact Bool.false_ne_true (hnot.symm.trans houtcome)

theorem finding : ((begun.after 12).thread 0 .main).control = .value (.bool true) := rfl

theorem exceeds : loop.Exceeds (begun.after 12) (begun.after 13) := by
  refine ⟨fun e he => ?_, rfl⟩
  cases he.symm.trans finding

end Endless

/-- This loop has found its condition true twice and turned once when it exceeds its limit. -/
theorem loops_stop_endless : Endless.begun.Possible ∧ Endless.loop.id < Endless.begun.size ∧
    Endless.loop.Begins Endless.begun ∧ Endless.loop.limit Endless.begun = 1 ∧
    Endless.loop.Reaches Endless.begun 2 1 (Endless.begun.after 12) ∧
    Endless.loop.Exceeds (Endless.begun.after 12) (Endless.begun.after 13) := by
  have hsize : Endless.loop.id < Endless.begun.size := by decide +kernel
  have hbegins : Endless.loop.Begins Endless.begun := ⟨default, rfl⟩
  obtain ⟨trues, turns, hn⟩ := Endless.loop.reaches_after Endless.begun fun j hj =>
    Endless.not_isOver_after (Nat.lt_trans hj (by decide : 12 < 13))
  obtain ⟨-, htrues, hnext⟩ := loops_stop Endless.begun_possible hsize hbegins hn
  obtain ⟨hexceeds, -⟩ := hnext _ (.next (Moment.follow_next _)) (Endless.not_isOver_after (by decide))
  obtain ⟨hfinds, htwice⟩ := hexceeds.1 Endless.exceeds
  obtain rfl : trues = 2 := htwice
  obtain rfl : turns = 1 := Nat.succ.inj (htrues hfinds).symm
  exact ⟨Endless.begun_possible, hsize, hbegins, rfl, hn, Endless.exceeds⟩

end DeskScript
