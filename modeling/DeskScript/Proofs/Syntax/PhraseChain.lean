import DeskScript.Proofs.Syntax.Giving
import DeskScript.Proofs.Syntax.PhraseTokens

set_option autoImplicit false

/-!
# Reading chains of operators

A chain of operators is read from its left end: `chain_spine` says in which state its loop stands after a phrase that may
still be the left part of a longer one.
-/

namespace DeskScript

/-- Contents behind which a phrase of a level does not go on: closing signs, and operators of a lower level. -/
inductive Content.Closes (level : Nat) : Content → Prop
  | finish : Closes level .finish
  | sign (s : Symbol) (h : s ∈ [Symbol.rightParen, .rightBracket, .rightBrace, .comma]) : Closes level (.symbol s)
  | joiner (op : Joiner) (h : op.level < level) : Closes level op.content

theorem Content.Closes.mono {level above : Nat} {content : Content} (h : content.Closes level) (hle : level ≤ above) :
    content.Closes above := by
  cases h with
  | finish => exact .finish
  | sign s hs => exact .sign s hs
  | joiner op hop => exact .joiner op (by omega)

def Stops (level : Nat) (k : List Token) : Prop := ∃ t rest, k = t :: rest ∧ t.content.Closes level

theorem Stops.mono {level above : Nat} {k : List Token} (h : Stops level k) (hle : level ≤ above) : Stops above k := by
  obtain ⟨t, rest, rfl, ht⟩ := h
  exact ⟨t, rest, rfl, ht.mono hle⟩

theorem Stops.ne_nil {level : Nat} {k : List Token} (h : Stops level k) : k ≠ [] := by
  obtain ⟨t, rest, rfl, -⟩ := h
  simp

theorem Joiner.content_cases (op : Joiner) :
    op.content = .keyword .or ∨ op.content = .keyword .and ∨
      ∃ s ∈ [Symbol.eq, .ne, .lt, .gt, .le, .ge, .plus, .minus, .star, .slash, .percent], op.content = .symbol s := by
  match op with
  | logic .or | logic .and => simp [content]
  | binary .eq | binary .ne | binary .lt | binary .gt | binary .le | binary .ge => simp [content]
  | binary .plus | binary .minus | binary .times | binary .divide | binary .remainder => simp [content]

/-- No phrase of an operator's level stops before the operator. -/
theorem Joiner.not_closes (op : Joiner) : ¬ op.content.Closes op.level := by
  intro h
  generalize hc : op.content = content at h
  cases h with
  | finish => obtain h | h | ⟨s, -, h⟩ := op.content_cases <;> simp [h] at hc
  | sign s hs =>
    obtain h | h | ⟨s', hs', h⟩ := op.content_cases
    · simp [h] at hc
    · simp [h] at hc
    · obtain rfl : s' = s := by simpa [h] using hc
      simp only [List.mem_cons, List.not_mem_nil, or_false] at hs hs'
      rcases hs with rfl | rfl | rfl | rfl <;> simp at hs'
  | joiner other hother =>
    rcases op with op | op <;> cases op <;> rcases other with o | o <;> cases o <;> simp_all [content, level]

namespace Parse

open Cursor (facing facing_next)

/-- The parser reads the phrase, as it is written where a level is wanted, from tokens that spell it. -/
def Reads (parser : Parse Expr) (wanted : Nat) (p : Phrase) : Prop :=
  ∀ source index previous ts k, Mark.Spelled previous (p.marks false wanted) ts → Stops wanted k →
    ∃ e, Gives parser (facing source index previous (ts ++ k)) e
        (facing source (index + ts.length) (ts.getLastD previous) k) ∧ e.unplaced = p.tree

def ReadsUpTo (bound : Nat) (parser : Parse Expr) (wanted : Nat) : Prop :=
  ∀ p : Phrase, (p.marks false wanted).length ≤ bound → Reads parser wanted p

theorem marks_loose {p : Phrase} {g : Bool} {wanted : Nat} {previous other : Token} {ts : List Token}
    (h : Mark.Spelled previous (p.marks g wanted) ts) : Mark.Spelled other (p.marks false wanted) ts := by
  obtain ⟨m, ms, hm, -⟩ := p.marks_head wanted
  rw [hm] at h ⊢
  exact Mark.spelled_loose h

structure Level (level : Nat) {ω : Type} (operator? : Token → Option ω) (build : Span → ω → Expr → Expr → Expr) :
    Prop where
  joins : ∀ op : Joiner, op.level = level → ∃ w, (∀ t, t.content = op.content → operator? t = some w) ∧
    ∀ span, build span w = op.build span
  only : ∀ t w, operator? t = some w → ∃ op : Joiner, op.level = level ∧ t.content = op.content

theorem Level.stops {level : Nat} {ω : Type} {operator? : Token → Option ω} {build : Span → ω → Expr → Expr → Expr}
    (table : Level level operator? build) {t : Token} (h : t.content.Closes level) : operator? t = none := by
  rw [Option.eq_none_iff_forall_ne_some]
  intro w hw
  obtain ⟨op, rfl, hop⟩ := table.only t w hw
  exact Joiner.not_closes op (hop ▸ h)

theorem binary_table {level : Nat} {operator? : Token → Option BinaryOp} (hlogic : ∀ op, (Joiner.logic op).level ≠ level)
    (h : ∀ t w, operator? t = some w ↔ (Joiner.binary w).level = level ∧ t.content = (Joiner.binary w).content) :
    Level level operator? Expr.binary := by
  refine ⟨fun op hop => ?_, fun t w hw => ⟨.binary w, (h t w).1 hw⟩⟩
  cases op with
  | binary op => exact ⟨op, fun t ht => (h t op).2 ⟨hop, ht⟩, fun _ => rfl⟩
  | logic op => exact absurd hop (hlogic op)

theorem product_table : Level 4 productOperator? Expr.binary := by
  refine binary_table (by intro op; cases op <;> decide) fun t w => ?_
  unfold productOperator?
  cases w <;> split <;> simp_all [Joiner.level, Joiner.content]

theorem sum_table : Level 3 sumOperator? Expr.binary := by
  refine binary_table (by intro op; cases op <;> decide) fun t w => ?_
  unfold sumOperator?
  cases w <;> split <;> simp_all [Joiner.level, Joiner.content]

theorem comparison_table : Level 2 comparisonOperator? Expr.binary := by
  refine binary_table (by intro op; cases op <;> decide) fun t w => ?_
  unfold comparisonOperator?
  cases w <;> split <;> simp_all [Joiner.level, Joiner.content]

theorem logic_table (op : LogicOp) : Level (Joiner.logic op).level (logicOperator? op) Expr.logic := by
  refine ⟨fun other hother => ?_, fun t w hw => ⟨.logic op, rfl, ?_⟩⟩
  · obtain rfl : other = .logic op := by
      cases op <;> rcases other with o | o <;> cases o <;> simp [Joiner.level] at hother ⊢
    refine ⟨op, fun t ht => ?_, fun _ => rfl⟩
    cases op <;> simp [logicOperator?, hasKeyword_iff, ht, Joiner.content]
  · cases op <;> simp_all [logicOperator?, hasKeyword_iff, Joiner.content]

end Parse

namespace Phrase

/-- Only at its own level does it matter for a phrase that the next level is wanted. -/
theorem marks_succ (p : Phrase) (g : Bool) (wanted : Nat) (h : p.level ≠ wanted) :
    p.marks g wanted = p.marks g (wanted + 1) := by
  match p with
  | unary op operand =>
    have h5 : decide (5 < wanted) = decide (5 < wanted + 1) := decide_eq_decide.2 (by simp only [level] at h; omega)
    rw [marks, marks, h5]
  | joined op left right =>
    have hop : decide (op.level < wanted) = decide (op.level < wanted + 1) :=
      decide_eq_decide.2 (by simp only [level] at h; omega)
    rw [marks, marks, hop]
  | number _ | text _ | bool true | bool false | null | var _ | array _ | object _ | call _ _ | member _ _
  | index _ _ => rfl

theorem marks_length (p : Phrase) (g : Bool) (wanted : Nat) :
    (p.marks g wanted).length = (p.marks false wanted).length := by
  obtain ⟨m, ms, hm, -⟩ := p.marks_head wanted
  simp [hm]

def isAccess : Phrase → Bool
  | member _ _ | index _ _ => true
  | _ => false

theorem parens_marks {p : Phrase} {g : Bool} (h : p.level < 6) :
    p.marks g 6 = .sign g .leftParen '(' :: p.marks true 0 ++ [.sign true .rightParen ')'] := by
  cases p with
  | unary op operand => rfl
  | joined op left right => rw [marks, marks, enclosed, enclosed, if_pos (by simpa [level] using h), if_neg (by simp)]
  | _ => simp [level] at h

theorem length_le_moreMarks {p : Phrase} {ps : List Phrase} (h : p ∈ ps) :
    (p.marks false 0).length ≤ (moreMarks ps).length := by
  induction ps with
  | nil => simp at h
  | cons q ps ih =>
    rw [moreMarks, List.cons_append, List.length_cons, List.length_append]
    rcases List.mem_cons.1 h with rfl | h
    · omega
    · have := ih h
      omega

theorem length_le_listMarks {p : Phrase} {ps : List Phrase} (h : p ∈ ps) :
    (p.marks false 0).length ≤ (listMarks ps).length := by
  cases ps with
  | nil => simp at h
  | cons q ps =>
    rw [listMarks, List.length_append, marks_length q true]
    rcases List.mem_cons.1 h with rfl | h
    · omega
    · have := length_le_moreMarks h
      omega

theorem length_le_moreEntryMarks {e : String × Phrase} {es : List (String × Phrase)} (h : e ∈ es) :
    (e.2.marks false 0).length ≤ (moreEntryMarks es).length := by
  induction es with
  | nil => simp at h
  | cons f es ih =>
    simp only [moreEntryMarks, List.cons_append, List.length_cons, List.length_append]
    rcases List.mem_cons.1 h with rfl | h
    · omega
    · have := ih h
      omega

theorem length_le_entryMarks {e : String × Phrase} {es : List (String × Phrase)} (g : Bool) (h : e ∈ es) :
    (e.2.marks false 0).length ≤ (entryMarks g es).length := by
  cases es with
  | nil => simp at h
  | cons f es =>
    simp only [entryMarks, List.cons_append, List.length_cons, List.length_append]
    rcases List.mem_cons.1 h with rfl | h
    · omega
    · have := length_le_moreEntryMarks h
      omega

theorem joined_of_level {p : Phrase} (h : p.level < 5) : ∃ op left right, p = joined op left right := by
  cases p with
  | joined op left right => exact ⟨op, left, right, rfl⟩
  | _ => simp [level] at h

theorem joined_marks {op : Joiner} {wanted : Nat} (h : op.level = wanted) (left right : Phrase) (g : Bool) :
    (joined op left right).marks g wanted = left.marks g wanted ++ op.mark :: right.marks false (wanted + 1) := by
  subst h
  rw [marks, enclosed, if_neg (by simp)]

end Phrase

namespace Parse

open Cursor (facing facing_next)

variable {level : Nat} {ω : Type} {operator? : Token → Option ω} {build : Span → ω → Expr → Expr → Expr}
  {operand : Parse Expr}

theorem chainFrom_joined (table : Level level operator? build) (op : Joiner) (hop : op.level = level) {start : Token}
    {left right : Expr} {n : Nat} {c c' : Cursor} (ht : c.here.content = op.content)
    (hright : Gives operand c.next right c') {result : Expr} {c'' : Cursor}
    (h : Gives (chainFrom operand operator? build start n (op.build (c'.spanFrom start) left right)) c' result c'') :
    Gives (chainFrom operand operator? build start (n + 1) left) c result c'' := by
  obtain ⟨w, hw, hbuild⟩ := table.joins op hop
  rw [chainFrom]
  refine gives_bind (gives_here c) ?_
  rw [hw _ ht]
  refine gives_bind (gives_advance c) (gives_bind hright (gives_bind (gives_spanFrom start c') ?_))
  rwa [hbuild]

theorem chainFrom_stop (table : Level level operator? build) {start : Token} {left : Expr} {n : Nat} {c : Cursor}
    (h : c.here.content.Closes level) : Gives (chainFrom operand operator? build start n left) c left c := by
  cases n with
  | zero => exact gives_pure left c
  | succ n =>
    refine gives_bind (gives_here c) ?_
    rw [table.stops h]
    exact gives_pure left c

theorem chain_spine (table : Level level operator? build) (hlevel : level < 5) {bound : Nat}
    (hoperand : ReadsUpTo bound operand (level + 1)) (p : Phrase) (hlength : (p.marks false level).length ≤ bound)
    (source : Option (List Char)) (index : Nat) {previous : Token} {ts k : List Token}
    (hts : Mark.Spelled previous (p.marks false level) ts) (hk : Stops (level + 1) k) :
    ∃ e n, k.length ≤ n ∧ e.unplaced = p.tree ∧ ∀ result c,
      Gives (chainFrom operand operator? build (facing source index previous (ts ++ k)).here n e)
          (facing source (index + ts.length) (ts.getLastD previous) k) result c →
        Gives (chain operand operator? build) (facing source index previous (ts ++ k)) result c := by
  by_cases h : p.level = level
  · obtain ⟨op, left, right, rfl⟩ := Phrase.joined_of_level (h ▸ hlevel)
    rw [Phrase.joined_marks h] at hts hlength
    obtain ⟨us, vs, rfl, hus, hvs⟩ := Mark.spelled_append hts
    obtain ⟨t, ws, rfl, ht, -, -, hws⟩ := Mark.spelled_cons hvs
    simp only [List.length_append, List.length_cons] at hlength
    have htstop : Stops (level + 1) (t :: (ws ++ k)) :=
      ⟨t, ws ++ k, rfl, ht ▸ .joiner op (Nat.lt_succ_of_le (Nat.le_of_eq h))⟩
    obtain ⟨l, n, hn, hltree, hspine⟩ :=
      chain_spine table hlevel hoperand left (by omega) source index hus htstop
    obtain ⟨r, hr, hrtree⟩ := hoperand right (by omega) source (index + us.length + 1) t ws k hws hk
    have htfinish : t.isFinish = false := by
      obtain hc | hc | ⟨s, -, hc⟩ := op.content_cases <;> simp [Token.isFinish, ht, Joiner.mark, hc]
    obtain ⟨n, rfl⟩ : ∃ m, n = m + 1 := ⟨n - 1, by simp only [List.length_cons] at hn; omega⟩
    simp only [List.append_assoc, List.cons_append, Cursor.facing_append, Cursor.facing_cons]
    refine ⟨op.build (Cursor.spanFrom (facing source (index + us.length + 1 + ws.length) (ws.getLastD t) k)
      (facing source index previous (us ++ t :: (ws ++ k))).here) l r, n, ?_, ?_, fun result c hresult => ?_⟩
    · simp only [List.length_cons, List.length_append] at hn
      omega
    · rw [Joiner.build_unplaced, hltree, hrtree, Phrase.tree]
    · refine hspine result c (chainFrom_joined table op h ht ?_ hresult)
      rwa [facing_next htfinish (by simp [hk.ne_nil])]
  · rw [p.marks_succ false level h] at hts hlength
    obtain ⟨e, hgives, htree⟩ := hoperand p hlength source index previous ts k hts hk
    obtain ⟨t, k, rfl, -⟩ := hk
    refine ⟨e, (t :: k).length, Nat.le_refl _, htree, fun result c hresult => ?_⟩
    exact gives_bind (gives_here _) (gives_bind hgives (gives_bind (gives_rounds _) hresult))

theorem chain_reads (table : Level level operator? build) (hlevel : level < 5) {bound : Nat}
    (hoperand : ReadsUpTo bound operand (level + 1)) : ReadsUpTo bound (chain operand operator? build) level := by
  intro p hlength source index previous ts k hts hk
  obtain ⟨e, n, -, htree, hspine⟩ :=
    chain_spine table hlevel hoperand p hlength source index hts (hk.mono (Nat.le_succ level))
  obtain ⟨t, k, rfl, ht⟩ := hk
  exact ⟨e, hspine e _ (chainFrom_stop table ht), htree⟩

end Parse

end DeskScript
