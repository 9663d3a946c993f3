import DeskScript.Machine.Step
import DeskScript.Proofs.Number.Order

set_option autoImplicit false

/-!
# Configurations that can be used

Budgets are tested before they are converted: the test lets NaN pass, a double between zero and one, which becomes the
count zero, and numbers that no conversion takes. All other budgets of an accepted configuration are as they should be:
`ofPlain_outcome`.
-/

namespace DeskScript

inductive Limits.Count where
  | loopIterations | callDepth | yieldInterval

def Limits.Count.key : Count → String
  | loopIterations => "max_loop_iterations" | callDepth => "max_call_depth" | yieldInterval => "yield_interval"

def Limits.count (l : Limits) : Count → Int
  | .loopIterations => l.maxLoopIterations
  | .callDepth => l.maxCallDepth
  | .yieldInterval => l.yieldInterval

namespace Config

def Gives (p : Plain) (name key : String) (value : Plain) : Prop :=
  ∃ (entries inner : Dict Plain), p = .dict entries ∧ entries.get? name = some (.dict inner) ∧ (key, value) ∈ inner

/-- A time limit is above zero, unless it is given as NaN. -/
def TimeFrom (p : Plain) (name : String) (seconds : Float) : Prop :=
  0 < seconds ∨ seconds.isNaN = true ∧ Gives p name "timeout_seconds" (.float seconds)

/-- A count is at least one, unless a double between zero and one is given: then it is zero. -/
def CountFrom (p : Plain) (key : String) (n : Int) : Prop :=
  1 ≤ n ∨ n = 0 ∧ ∃ x, Gives p "limits" key (.float x) ∧ 0 < x ∧ x < 1

inductive Unconverted (p : Plain) : Fault → Prop
  | seconds {name : String} {i : Int} (h : Gives p name "timeout_seconds" (.int i)) (hpos : 0 < i) (hnone : Number.ofInt? i = none) :
      Unconverted p .integerTooLarge
  | nan {count : Limits.Count} {x : Float} (h : Gives p "limits" count.key (.float x)) (hnan : x.isNaN = true) :
      Unconverted p .integerOfNaN
  | infinite {count : Limits.Count} {x : Float} (h : Gives p "limits" count.key (.float x)) (hinf : x.isInf = true) :
      Unconverted p .integerOfInfinity

def Outcome {α : Type} (p : Plain) (accepted : α → Prop) : Except ConfigFault α → Prop
  | .ok a => accepted a
  | .error (.fault f) => Unconverted p f
  | .error _ => True

variable {α β : Type} {p value : Plain} {name key : String}

theorem Outcome.bind {accepted : α → Prop} {accepted' : β → Prop} {x : Except ConfigFault α}
    {f : α → Except ConfigFault β} (h : Outcome p accepted x) (hf : ∀ a, accepted a → Outcome p accepted' (f a)) :
    Outcome p accepted' (x >>= f) := by
  cases x with
  | ok a => exact hf a h
  | error e => cases e <;> exact h

inductive Positive : Plain → Prop
  | int {i : Int} (h : 0 < i) : Positive (.int i)
  | float {x : Float} (h : ¬ x ≤ 0) : Positive (.float x)

theorem positive_outcome (p : Plain) (key : String) (value : Plain) :
    Outcome p (fun v => v = value ∧ Positive value) (positive key value) := by
  cases value with
  | int i =>
    rw [positive]
    split
    · trivial
    · exact ⟨rfl, .int (by omega)⟩
  | float x =>
    rw [positive]
    split
    · trivial
    · exact ⟨rfl, .float (by assumption)⟩
  | _ => trivial

theorem toFloat_outcome (h : Gives p name "timeout_seconds" value) (hpos : Positive value) :
    Outcome p (TimeFrom p name) (toFloat value) := by
  cases hpos with
  | @int i hi =>
    rw [toFloat]
    split
    · rename_i x hx
      exact .inl (Number.ofInt?_pos hi hx)
    · rename_i hnone
      exact .seconds h hi hnone
  | @float x hx =>
    rcases Number.pos_of_not_le hx with hpos | hnan
    · exact .inl hpos
    · exact .inr ⟨hnan, h⟩

theorem toInt_outcome {count : Limits.Count} (h : Gives p "limits" count.key value) (hpos : Positive value) :
    Outcome p (CountFrom p count.key) (toInt value) := by
  cases hpos with
  | @int i hi => exact .inl hi
  | @float x hx =>
    rw [toInt]
    split
    · rename_i hnan
      exact .nan h hnan
    · split
      · rename_i hinf
        exact .infinite h hinf
      · rename_i hnan hinf
        have hpos : 0 < x := (Number.pos_of_not_le hx).resolve_right hnan
        rcases Number.truncated_of_pos (Number.finite_of_not hnan hinf) hpos with hone | ⟨hzero, hbelow⟩
        · exact .inl hone
        · exact .inr ⟨hzero, x, h, hpos, hbelow⟩

theorem checkKeys_outcome (p : Plain) (name : String) (entries : Dict Plain) (known : List String) :
    Outcome p (fun _ => True) (checkKeys name entries known) := by
  unfold checkKeys
  split <;> trivial

theorem part_outcome (entries : Dict Plain) (name : String) :
    Outcome (.dict entries) (fun inner => ∀ entry ∈ inner, Gives (.dict entries) name entry.1 entry.2)
      (part entries name) := by
  unfold part
  split
  · exact fun _ h => nomatch h
  · rename_i found hfound
    split
    · split
      · exact fun entry hentry => ⟨entries, _, rfl, hfound, hentry⟩
      · trivial
    · exact fun _ h => nomatch h

structure LimitsFrom (p : Plain) (l : Limits) : Prop where
  time : TimeFrom p "limits" l.timeoutSeconds
  counts : ∀ count : Limits.Count, CountFrom p count.key (l.count count)

theorem limitsFrom_default (p : Plain) : LimitsFrom p {} := by
  refine ⟨.inl (by decide +kernel), fun count => .inl ?_⟩
  cases count <;> decide

theorem setLimit_outcome {l : Limits} (hl : LimitsFrom p l) (h : Gives p "limits" key value) :
    Outcome p (LimitsFrom p) (setLimit l key value) := by
  unfold setLimit
  refine (positive_outcome p _ value).bind fun v ⟨hv, hpos⟩ => ?_
  subst hv
  split
  · refine (toFloat_outcome h hpos).bind fun seconds hseconds => ?_
    exact ⟨hseconds, hl.counts⟩
  · refine (@toInt_outcome p _ .loopIterations h hpos).bind fun n hn => ?_
    refine ⟨hl.time, fun count => ?_⟩
    cases count with
    | loopIterations => exact hn
    | callDepth => exact hl.counts .callDepth
    | yieldInterval => exact hl.counts .yieldInterval
  · refine (@toInt_outcome p _ .callDepth h hpos).bind fun n hn => ?_
    refine ⟨hl.time, fun count => ?_⟩
    cases count with
    | loopIterations => exact hl.counts .loopIterations
    | callDepth => exact hn
    | yieldInterval => exact hl.counts .yieldInterval
  · refine (@toInt_outcome p _ .yieldInterval h hpos).bind fun n hn => ?_
    refine ⟨hl.time, fun count => ?_⟩
    cases count with
    | loopIterations => exact hl.counts .loopIterations
    | callDepth => exact hl.counts .callDepth
    | yieldInterval => exact hn
  · exact hl

/-- One budget after the other, by induction on the entries. -/
theorem setLimits_outcome {l : Limits} (hl : LimitsFrom p l) (given : Dict Plain)
    (h : ∀ entry ∈ given, Gives p "limits" entry.1 entry.2) :
    Outcome p (LimitsFrom p) (given.foldlM (fun l (key, p) => setLimit l key p) l) := by
  induction given generalizing l with
  | nil => exact hl
  | cons entry given ih =>
    rw [List.foldlM_cons]
    refine (setLimit_outcome hl (h entry List.mem_cons_self)).bind fun l' hl' => ?_
    exact ih hl' fun other hother => h other (List.mem_cons_of_mem entry hother)

theorem limitsOf_outcome (entries : Dict Plain) :
    Outcome (.dict entries) (LimitsFrom (.dict entries)) (limitsOf entries) := by
  unfold limitsOf
  refine (part_outcome entries "limits").bind fun given hgiven => ?_
  refine (checkKeys_outcome _ "limits" given limitKeys).bind fun _ _ => ?_
  exact setLimits_outcome (limitsFrom_default _) given hgiven

theorem autoexecOf_outcome (entries : Dict Plain) :
    Outcome (.dict entries) (fun found => TimeFrom (.dict entries) "autoexec" found.2) (autoexecOf entries) := by
  unfold autoexecOf
  refine (part_outcome entries "autoexec").bind fun given hgiven => ?_
  refine (checkKeys_outcome _ "autoexec" given _).bind fun _ _ => ?_
  have htimeout (paths : List String) : Outcome (.dict entries)
      (fun found : List String × Float => TimeFrom (.dict entries) "autoexec" found.2) (do
        let timeout ← positive "autoexec.timeout_seconds" ((given.get? "timeout_seconds").getD (.float 10))
        return (paths, ← toFloat timeout)) := by
    cases htimeout : given.get? "timeout_seconds" with
    | none =>
      have hten : positive "autoexec.timeout_seconds" (.float 10) = .ok (.float 10) := by
        rw [positive, if_neg (by decide +kernel)]
      have hpos : (0 : Float) < 10 := by decide +kernel
      rw [Option.getD_none, hten]
      exact .inl hpos
    | some value =>
      obtain ⟨before, after, hgiven', -⟩ := List.lookup_eq_some_iff.1 htimeout
      have hvalue := hgiven ("timeout_seconds", value) (by rw [hgiven']; simp)
      refine (positive_outcome _ _ value).bind fun v ⟨hv, hpos⟩ => ?_
      subst hv
      exact (toFloat_outcome hvalue hpos).bind fun seconds hseconds => hseconds
  split
  · exact htimeout _
  · split
    · exact htimeout _
    · trivial
  · trivial

theorem logLevelOf_outcome (p : Plain) (entries : Dict Plain) : Outcome p (fun _ => True) (logLevelOf entries) := by
  unfold logLevelOf
  dsimp only
  split <;> trivial

/-- An accepted configuration whose budgets are as the data gives them. Its runs can tell when to yield, unless the
interval is given as a double between zero and one. -/
structure Accepted (p : Plain) (c : Config) : Prop where
  limits : LimitsFrom p c.limits
  autoexec : TimeFrom p "autoexec" c.autoexecTimeout
  yields : ∀ r : Run, r.limits.yieldInterval = c.limits.yieldInterval →
    (∃ b, r.yields = .ok b) ∨ ∃ x, Gives p "limits" "yield_interval" (.float x) ∧ 0 < x ∧ x < 1

theorem LimitsFrom.yields {l : Limits} (h : LimitsFrom p l) {r : Run} (hr : r.limits.yieldInterval = l.yieldInterval) :
    (∃ b, r.yields = .ok b) ∨ ∃ x, Gives p "limits" "yield_interval" (.float x) ∧ 0 < x ∧ x < 1 := by
  rcases h.counts .yieldInterval with hone | ⟨-, hgiven⟩
  · refine .inl ⟨_, if_neg ?_⟩
    rw [hr]
    exact fun hzero => absurd (hzero ▸ hone : (1 : Int) ≤ 0) (by decide)
  · exact .inr hgiven

/-- Every plain datum is accepted as a configuration with the budgets that it gives, or is refused by a rule, or gives a
number that cannot be converted. -/
theorem ofPlain_outcome (p : Plain) : Outcome p (Accepted p) (ofPlain p) := by
  have haccepted {c : Config} (hlimits : LimitsFrom p c.limits) (hautoexec : TimeFrom p "autoexec" c.autoexecTimeout) :
      Accepted p c := ⟨hlimits, hautoexec, fun _ hr => hlimits.yields hr⟩
  cases p with
  | null => exact haccepted (limitsFrom_default _) (.inl (by decide +kernel))
  | dict entries =>
    refine (checkKeys_outcome _ "config" entries _).bind fun _ _ => ?_
    refine (limitsOf_outcome entries).bind fun limits hlimits => ?_
    refine (autoexecOf_outcome entries).bind fun autoexec hautoexec => ?_
    refine (logLevelOf_outcome _ entries).bind fun level _ => ?_
    exact haccepted hlimits hautoexec
  | _ => trivial

/-- Half a statement between two yields: the interval is accepted and becomes zero, and no run can use it. -/
theorem half_interval_accepted : ∃ c, ofPlain (.dict [("limits", .dict [("yield_interval", .float 0.5)])]) = .ok c ∧
    c.limits.yieldInterval = 0 ∧ ∀ r : Run, r.limits = c.limits → r.yields = .error .intervalZero := by
  have hread : (ofPlain (.dict [("limits", .dict [("yield_interval", .float 0.5)])])).toOption.map
      (fun c => c.limits.yieldInterval) = some 0 := by decide +kernel
  cases hc : ofPlain (.dict [("limits", .dict [("yield_interval", .float 0.5)])]) with
  | error e =>
    rw [hc] at hread
    cases hread
  | ok c =>
    rw [hc] at hread
    have hzero : c.limits.yieldInterval = 0 := Option.some.inj hread
    exact ⟨c, rfl, hzero, fun r hr => if_pos (by rw [hr]; exact hzero)⟩

end Config

end DeskScript
