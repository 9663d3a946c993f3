import DeskScript.Proofs.Syntax.SpacingExpression
import DeskScript.Proofs.Token.Tiling

set_option autoImplicit false

/-!
# Places of the statements of a script

Each parser of a statement gives a well spaced statement on the tokens it passes, whose span covers the expressions for
which tokens were read. Where a parser goes back to where it was, the span ends at the last token passed before. Main
statements: `parse_spaced` and `parse_covering`.
-/

namespace DeskScript

open Token

namespace Expr

variable {ts : List Token} {i j k l : Nat} {e : Expr}

/-- A well spaced expression between two offsets, or one for which no token was read. -/
def Held (ts : List Token) (i j : Nat) (e : Expr) : Prop := e.Fits i j ∨ e.Vacant ts ∧ e.Throughout Spaced

theorem Held.mono (h : e.Held ts i j) (hi : k ≤ i) (hj : j ≤ l) : e.Held ts k l := h.imp_left fun h => h.mono hi hj

theorem Held.throughout (h : e.Held ts i j) : e.Throughout Spaced := h.elim (fun h => h.holds) fun h => h.2

theorem Held.within (h : e.Held ts i j) {s : Span} (hi : s.start.offset = i) (hj : s.stop.offset = j) :
    e.span.Within s ∨ e.Vacant ts := by
  rcases h with h | h
  · exact .inl ⟨by rw [hi]; exact h.start, by rw [hj]; exact h.stop⟩
  · exact .inr h.1

end Expr

structure Stmt.Placed (ts : List Token) (s : Stmt) : Prop where
  spaced : s.Spaced
  covering : s.Covering ts

structure Block.Placed (ts : List Token) (b : Block Stmt) : Prop where
  statements : b.span.Holds (b.statements.map Stmt.span)
  each : ∀ s ∈ b.statements, s.Throughout (Stmt.Placed ts)

abbrev Block.Fits (ts : List Token) (i j : Nat) (b : Block Stmt) : Prop := Span.Fits Block.span (Block.Placed ts) i j b

abbrev Block.Stands (ts : List Token) (c : Cursor) (b : Block Stmt) (c' : Cursor) : Prop :=
  Span.Stands Block.span (Block.Placed ts) ts c b c'

abbrev Block.Lined (ts : List Token) (i j : Nat) (bs : List (Block Stmt)) : Prop :=
  Span.Lined Block.span (Block.Placed ts) i j bs

namespace Stmt

variable {ts : List Token} {i j : Nat} {c : Cursor} {s : Stmt}

abbrev Fits (ts : List Token) (i j : Nat) (s : Stmt) : Prop := Span.Fits span (Throughout (Placed ts)) i j s

abbrev Stands (ts : List Token) (c : Cursor) (s : Stmt) (c' : Cursor) : Prop :=
  Span.Stands span (Throughout (Placed ts)) ts c s c'

abbrev Lined (ts : List Token) (i j : Nat) (ss : List Stmt) : Prop := Span.Lined span (Throughout (Placed ts)) i j ss

theorem Fits.block (h : s.Fits ts i j) : Block.Fits ts i j ⟨s.span, [s]⟩ := by
  have hlined : Lined ts s.span.start.offset s.span.stop.offset [s] :=
    Span.Fits.lined ⟨Nat.le_refl _, h.proper, Nat.le_refl _, h.holds⟩
  exact ⟨h.start, h.proper, h.stop, ⟨h.proper, hlined.row⟩, hlined.each⟩

/-- A statement that spans what was read from a token on, with its blocks one behind the other. -/
theorem fits_built {start : Token} (hspan : s.span = c.spanFrom start) (hstart : start.span.start.offset ≤ c.back)
    (hblocks : Block.Lined ts start.span.start.offset c.back s.blocks)
    (hexpressions : ∀ e ∈ s.expressions, e.Held ts start.span.start.offset c.back)
    (hform : (∀ e ∈ s.expressions, e.span.Within s.span ∨ e.Vacant ts) → s.Covering ts) :
    s.Fits ts start.span.start.offset c.back := by
  obtain ⟨hi, hj⟩ := Cursor.spanFrom_offsets hspan hstart
  have hproper : s.span.start.offset ≤ s.span.stop.offset := by omega
  have hrow : s.span.Holds (s.blocks.map Block.span) := ⟨hproper, by rw [hi, hj]; exact hblocks.row⟩
  refine ⟨Nat.le_of_eq hi.symm, hproper, Nat.le_of_eq hj, .intro ⟨⟨hrow, ?_, ?_⟩, ?_⟩ ?_⟩
  · exact fun b hb => (hblocks.each b hb).statements
  · exact fun e he => (hexpressions e he).throughout
  · exact hform fun e he => (hexpressions e he).within hi hj
  · exact fun b hb => (hblocks.each b hb).each

/-- Statements on the tokens from offset `i` up to a cursor, if there is any statement. -/
def Strung (ts : List Token) (i : Nat) (c : Cursor) (ss : List Stmt) : Prop :=
  ss = [] ∨ c.Clear ts ∧ i ≤ c.back ∧ Lined ts i c.back ss

variable {c' : Cursor} {ss : List Stmt}

theorem Strung.after (h : Strung ts i c ss) (honto : c.Onto ts c') : Strung ts i c' ss := by
  rcases h with rfl | ⟨hc, hi, hlined⟩
  · exact .inl rfl
  · exact .inr ⟨honto.clear hc, Nat.le_trans hi (honto.back_le hc), hlined.after hc honto⟩

theorem Strung.snoc (h : Strung ts i c ss) (hi : i ≤ c.front) (hs : Stands ts c s c') :
    Strung ts i c' (ss ++ [s]) := by
  refine .inr ⟨hs.leads.clear, Nat.le_trans hi hs.leads.le, ?_⟩
  rcases h with rfl | ⟨hc, hback, hlined⟩
  · exact (hs.fits.mono hi (Nat.le_refl _)).lined
  · exact hlined.behind hback hs.fits hc.gap

/-- What holds all of the tokens up to a cursor holds the statements on them. -/
theorem Strung.holds (h : Strung ts i c ss) {span : Span} (hproper : span.start.offset ≤ span.stop.offset)
    (hstart : span.start.offset = i) (hstop : i ≤ c.back → c.back ≤ span.stop.offset) :
    span.Holds (ss.map Stmt.span) ∧ ∀ s ∈ ss, s.Throughout (Placed ts) := by
  rcases h with rfl | ⟨-, hback, hlined⟩
  · exact ⟨⟨hproper, .nil _ _⟩, by simp⟩
  · refine ⟨⟨hproper, ?_⟩, hlined.each⟩
    exact (hlined.mono (Nat.le_of_eq hstart) (hstop hback)).row

end Stmt

namespace Parse

open Cursor DeskScript.Expr

variable {α : Type} {ts : List Token} [Laid ts] {c : Cursor}

theorem rawMessage_leaf (span : Span) (raw : List Char) :
    (rawMessage span raw).span = span ∧ (rawMessage span raw).parts = [] := by
  unfold rawMessage
  dsimp only
  split <;> exact ⟨rfl, rfl⟩

/-- An empty message stands at the token that ends it; any other one lies on the tokens that are passed. -/
theorem grants_message {expression : Parse Expr} (hexpression : Placing ts expression) {stops : Token → Bool}
    (hends : ∀ t, stops t = true → t.EndsMessage) (hgoes : ∀ t, stops t = false → t.endsStatement = false)
    (hc : c.Inside ts) :
    Grants (message expression stops) c fun e c' =>
      c.Onto ts c' ∧ c.front ≤ e.span.start.offset ∧ e.Held ts c.front c'.back := by
  refine .step (gives_here c) ?_
  split
  · rename_i hstop
    have hvacant : (Expr.literal c.here.span (.text "")).Throughout Spaced := throughout_of_lined hc.proper .nil
    exact .pure ⟨.refl, Nat.le_refl _, .inr ⟨.message hc.here_mem (hends _ hstop), hvacant⟩⟩
  · rename_i hgo
    have hgoing := hgoes c.here (by simpa using hgo)
    have hinner : c.here.isFinish = false :=
      Token.isFinish_eq_false fun hfinish => by simp [endsStatement, hfinish] at hgoing
    refine .step (gives_get c) ?_
    dsimp only
    split
    · rename_i e c₁ hwhole
      have hrun : expression.run c = .ok (e, c₁) := by
        split at hwhole <;> simp_all
      have hread := (hexpression.grants hc).of_run hrun
      have hback : Gives (do set c₁; return e) c e c₁ := rfl
      exact .of_gives hback ⟨hread.leads.onto, hread.fits.start, .inl hread.fits⟩
    · refine .step (gives_rounds c) ?_
      have hskip : Grants (skipMessage stops (c.ahead + 1) []) c fun _ c' => c.Leads ts c' := by
        refine .step (gives_here c) ?_
        rw [if_neg hgo]
        split
        · exact .expected _
        · have hnext := (hc.next hinner).1
          exact .step (gives_advance c) ((Moves.moves hnext.clear.inside).mono fun _ c₁ h₁ => hnext.then h₁)
      refine hskip.bind fun lexemes c₁ h₁ => .step (gives_spanFrom _ c₁) (.pure ?_)
      have hleaf := rawMessage_leaf (c₁.spanFrom c.here) (rawText c.source (c₁.spanFrom c.here) lexemes.reverse)
      have hfits : (rawMessage (c₁.spanFrom c.here) (rawText c.source (c₁.spanFrom c.here) lexemes.reverse)).Fits
          c.front c₁.back := fits_built hleaf.1 h₁.le (by rw [hleaf.2]; exact .nil)
      exact ⟨h₁.onto, hfits.start, .inl hfits⟩

theorem grants_targetFrom {expression : Parse Expr} (hexpression : Placing ts expression) {start : Token} {n : Nat}
    {target : Target} (hc : c.Clear ts) (htarget : target.toExpr.Fits start.span.start.offset c.back) :
    Grants (targetFrom expression start n target) c fun t c' =>
      c.Onto ts c' ∧ t.toExpr.Fits start.span.start.offset c'.back := by
  induction n generalizing c target with
  | zero => exact .pure ⟨.refl, htarget⟩
  | succ n ih =>
    refine (grants_accessor? hexpression hc).bind fun key? c₁ h => ?_
    cases key? with
    | none => exact .pure ⟨h.1, htarget.mono (Nat.le_refl _) (h.1.back_le hc)⟩
    | some key =>
      have hkey := h.2 key rfl
      have hbuilt : (Target.property (c₁.spanFrom start) target.toExpr key).toExpr.Fits start.span.start.offset
          c₁.back :=
        fits_built rfl (Nat.le_trans htarget.le hkey.le) (htarget.lined.behind htarget.le hkey (Nat.le_refl _))
      refine .step (gives_spanFrom _ c₁) ((ih (h.1.clear hc) hbuilt).mono fun t c₂ h' => ?_)
      exact ⟨h.1.trans h'.1, h'.2⟩

theorem grants_target {expression : Parse Expr} (hexpression : Placing ts expression) (allowBare : Bool)
    (hc : c.Inside ts) :
    Grants (target expression allowBare) c fun t c' => c.Leads ts c' ∧ t.toExpr.Fits c.front c'.back := by
  have hrest (name : String) (hinner : c.here.isFinish = false) :
      Grants (do
        let _ ← advance
        targetFrom expression c.here (← rounds) (.var c.here.span name)) c fun t c' =>
          c.Leads ts c' ∧ t.toExpr.Fits c.front c'.back := by
    have hnext := (hc.next hinner).1
    have hvar : (Target.var c.here.span name).toExpr.Fits c.front c.next.back := fits_token hc hinner rfl rfl
    refine .step (gives_advance c) (.step (gives_rounds _) ?_)
    exact (grants_targetFrom hexpression hnext.clear hvar).mono fun t c₁ h => ⟨hnext.then h.1, h.2⟩
  have hfail {f : String → Parse Target} {Q : Target → Cursor → Prop} :
      Grants (failAt c.here .invalidTarget >>= f) c Q :=
    (Grants.failAt (Q := fun _ _ => False) _ _).bind fun _ _ h => h.elim
  refine .step (gives_here c) ?_
  split <;> rename_i hhere
  · exact hrest _ (by simp [isFinish, hhere])
  · split
    · exact hrest _ (by simp [isFinish, hhere])
    · exact hfail
  · exact hfail

structure Parts.Placing (ts : List Token) (p : Parts) : Prop where
  nested : p.nested.Placing ts
  body : ∀ inLoop {c}, c.Inside ts → Grants (p.body inLoop) c (Block.Stands ts c)
  statement : ∀ {c}, c.Inside ts → Grants p.statement c (Stmt.Stands ts c)

section

variable {p : Parts} (hp : p.Placing ts)
include hp

omit [Laid ts] in
theorem grants_expressionStatement (hc : c.Inside ts) : Grants (expressionStatement p) c (Stmt.Stands ts c) := by
  refine .step (gives_here c) (hp.nested.expression.bind hc fun e c₁ h₁ he => .step (gives_spanFrom _ c₁) (.pure ?_))
  exact ⟨h₁, Stmt.fits_built rfl h₁.le .nil (List.forall_mem_singleton.2 (.inl he)) id⟩

omit [Laid ts] in
theorem grants_assigned {start : Token} {target : Target} (hc : c.Clear ts)
    (htarget : target.toExpr.Fits start.span.start.offset c.back) :
    Grants (do
      let value ← p.expression
      return Stmt.assign (← spanFrom start) target value) c fun s c' =>
        c.Leads ts c' ∧ s.Fits ts start.span.start.offset c'.back := by
  refine hp.nested.expression.bind hc.inside fun value c₁ h₁ hvalue => .step (gives_spanFrom _ c₁) (.pure ⟨h₁, ?_⟩)
  have hle := h₁.onto.back_le hc
  refine Stmt.fits_built rfl (Nat.le_trans htarget.le hle) .nil (List.forall_mem_cons.2 ⟨.inl ?_, ?_⟩) id
  · exact htarget.mono (Nat.le_refl _) hle
  · exact List.forall_mem_singleton.2 (.inl (hvalue.mono (Nat.le_trans htarget.le hc.gap) (Nat.le_refl _)))

theorem grants_setStatement (hc : c.Inside ts) : Grants (setStatement p) c (Stmt.Stands ts c) := by
  have hnext := hc.onto_next
  refine .step (gives_advance c) ?_
  refine (grants_target hp.nested.expression true (hnext.inside hc)).bind fun target c₁ h₁ => ?_
  refine .after h₁.1.clear.inside fun _ c₂ h₂ => ?_
  refine (grants_assigned hp (h₁.1.then h₂).clear ?_).mono fun s c₃ h₃ => ⟨?_, h₃.2⟩
  · exact h₁.2.mono hnext.front_le (h₂.back_le h₁.1.clear)
  · exact hnext.leads (h₁.1.then (h₂.leads h₃.1).onto)

/-- Without `=` behind a target, the target is read again as an expression. -/
theorem grants_variableStatement (hc : c.Inside ts) : Grants (variableStatement p) c (Stmt.Stands ts c) := by
  refine .step (gives_here c) (.step (gives_get c) ?_)
  refine (grants_target hp.nested.expression false hc).bind fun target c₁ h₁ => ?_
  refine .after h₁.1.clear.inside fun assigned c₂ h₂ => ?_
  split
  · refine (grants_assigned hp (h₁.1.then h₂).clear ?_).mono fun s c₃ h₃ => ⟨h₁.1.then (h₂.leads h₃.1).onto, h₃.2⟩
    exact h₁.2.mono (Nat.le_refl _) (h₂.back_le h₁.1.clear)
  · have hback : Gives (set c : Parse PUnit) c₂ ⟨⟩ c := rfl
    exact .step hback (grants_expressionStatement hp hc)

omit hp in
theorem grants_controlStatement (hc : c.Inside ts) (hinner : c.here.isFinish = false) (inLoop : Bool)
    {build : Span → Stmt} (hspan : ∀ span, (build span).span = span) (hblocks : ∀ span, (build span).blocks = [])
    (hexpressions : ∀ span, (build span).expressions = [])
    (hform : ∀ span, (∀ e ∈ (build span).expressions, e.span.Within span ∨ e.Vacant ts) → (build span).Covering ts) :
    Grants (controlStatement inLoop build) c (Stmt.Stands ts c) := by
  have hnext := (hc.next hinner).1
  refine .step (gives_advance c) ?_
  split
  · refine .pure ⟨hnext, Stmt.fits_built ((hspan _).trans (hc.spanFrom_next hinner).symm) hnext.le ?_ ?_ ?_⟩
    · rw [hblocks]
      exact .nil
    · simp [hexpressions]
    · rw [hspan]
      exact hform _
  · exact .failAt _ _

theorem grants_returnStatement (hc : c.Inside ts) (hinner : c.here.isFinish = false) :
    Grants (returnStatement p) c (Stmt.Stands ts c) := by
  have hnext := (hc.next hinner).1
  have hbuilt {value : Option Expr} {c₁ : Cursor} (h₁ : c.Leads ts c₁)
      (hvalue : ∀ e ∈ value.toList, e.Held ts c.front c₁.back) :
      Grants (do return Stmt.giveBack (← spanFrom c.here) value) c₁ (Stmt.Stands ts c) :=
    .step (gives_spanFrom _ c₁) (.pure ⟨h₁, Stmt.fits_built rfl h₁.le .nil hvalue id⟩)
  refine .step (gives_advance c) (.step (gives_at _ _) ?_)
  split
  · exact .step (gives_pure _ _) (hbuilt hnext (by simp))
  · refine (hp.nested.expression.grants hnext.clear.inside).some.bind ?_
    rintro _ c₁ ⟨value, rfl, h₁⟩
    refine hbuilt (hnext.then h₁.leads.onto) (List.forall_mem_singleton.2 (.inl ?_))
    exact h₁.fits.mono hnext.onto.front_le (Nat.le_refl _)

/-- Line ends behind a block are passed if `else` follows them, and otherwise left to be read again. -/
theorem grants_branchStatement (inLoop : Bool) (hc : c.Inside ts) :
    Grants (branchStatement p inLoop) c (Stmt.Stands ts c) := by
  have hnext := hc.onto_next
  refine .step (gives_advance c) (hp.nested.expression.bind (hnext.inside hc) fun condition c₁ h₁ hcondition => ?_)
  refine .after h₁.clear.inside fun _ c₂ h₂ => ?_
  have hread := hnext.leads (h₁.then h₂)
  refine (hp.body inLoop hread.clear.inside).bind fun thenBlock c₃ h₃ => .step (gives_get c₃) ?_
  have hpassed := hread.then h₃.leads.onto
  have hbuilt (elseBlock : Option (Block Stmt)) {c₄ : Cursor} (h₄ : c₃.Onto ts c₄)
      (helse : ∀ b ∈ elseBlock, b.Fits ts c₃.back c₄.back) :
      Grants (do return Stmt.branch (← spanFrom c.here) condition thenBlock elseBlock) c₄ (Stmt.Stands ts c) := by
    refine .step (gives_spanFrom _ c₄) (.pure ⟨hpassed.then h₄, ?_⟩)
    have hback := h₄.back_le hpassed.clear
    have hthen := h₃.fits.mono hread.onto.front_le (Nat.le_refl _)
    refine Stmt.fits_built rfl (hpassed.then h₄).le ?_ (List.forall_mem_singleton.2 (.inl ?_)) id
    · cases elseBlock with
      | none => exact hthen.lined.after hpassed.clear h₄
      | some b => exact hthen.lined.snoc hpassed.le (helse b rfl)
    · exact hcondition.mono hnext.front_le (Nat.le_trans ((h₂.leads h₃.leads).onto.back_le h₁.clear) hback)
  refine .after hpassed.clear.inside fun _ c₄ h₄ => ?_
  refine .after (hpassed.then h₄).clear.inside fun _ c₅ h₅ => ?_
  have hbehind := h₄.trans h₅
  have hgap := Nat.le_trans hpassed.clear.gap hbehind.front_le
  split
  · refine .step (gives_at _ c₅) ?_
    split
    · refine (hp.statement (hpassed.then hbehind).clear.inside).bind fun inner c₆ h₆ => ?_
      refine .step (gives_pure _ _) (hbuilt (some ⟨inner.span, [inner]⟩) (hbehind.leads h₆.leads).onto fun b hb => ?_)
      obtain rfl := Option.some.inj hb
      exact Stmt.Fits.block (h₆.fits.mono hgap (Nat.le_refl _))
    · refine (hp.body inLoop (hpassed.then hbehind).clear.inside).some.bind ?_
      rintro _ c₆ ⟨elseBlock, rfl, h₆⟩
      refine hbuilt _ (hbehind.leads h₆.leads).onto fun b hb => ?_
      obtain rfl := Option.some.inj hb
      exact h₆.fits.mono hgap (Nat.le_refl _)
  · have hback : Gives (set c₃ : Parse PUnit) c₅ ⟨⟩ c₃ := rfl
    exact .step hback (.step (gives_pure _ _) (hbuilt none .refl (by simp)))

omit [Laid ts] in
theorem grants_conditionalLoop {start : Token} (hc : c.Inside ts) (hstart : start.span.start.offset ≤ c.front) :
    Grants (conditionalLoop p start) c fun s c' => c.Leads ts c' ∧ s.Fits ts start.span.start.offset c'.back := by
  refine hp.nested.expression.bind hc fun condition c₁ h₁ hcondition => ?_
  refine (hp.body true h₁.clear.inside).bind fun body c₂ h₂ => .step (gives_spanFrom _ c₂) (.pure ?_)
  have hpassed := h₁.then h₂.leads.onto
  refine ⟨hpassed, Stmt.fits_built rfl (Nat.le_trans hstart hpassed.le) ?_ (List.forall_mem_singleton.2 (.inl ?_)) id⟩
  · exact (h₂.fits.mono (Nat.le_trans hstart h₁.onto.front_le) (Nat.le_refl _)).lined
  · exact hcondition.mono hstart (h₂.leads.onto.back_le h₁.clear)

theorem grants_loopStatement (hc : c.Inside ts) (hinner : c.here.isFinish = false) :
    Grants (loopStatement p) c (Stmt.Stands ts c) := by
  have hnext := (hc.next hinner).1
  refine .step (gives_advance c) (.after hnext.clear.inside fun _ c₁ h₁ => ?_)
  have hopened := hnext.then h₁
  split
  · refine (grants_conditionalLoop hp hopened.clear.inside hopened.onto.front_le).mono fun s c₂ h₂ => ?_
    exact ⟨hopened.then h₂.1.onto, h₂.2⟩
  · refine hp.nested.expression.bind hopened.clear.inside fun count c₂ h₂ hcount => ?_
    refine (hp.body true h₂.clear.inside).bind fun body c₃ h₃ => .step (gives_spanFrom _ c₃) (.pure ?_)
    have hpassed := hopened.then (h₂.then h₃.leads.onto).onto
    refine ⟨hpassed, Stmt.fits_built rfl hpassed.le ?_ (List.forall_mem_singleton.2 (.inl ?_)) id⟩
    · exact (h₃.fits.mono (Nat.le_trans hopened.onto.front_le h₂.onto.front_le) (Nat.le_refl _)).lined
    · exact hcount.mono hopened.onto.front_le (h₃.leads.onto.back_le h₂.clear)

theorem grants_foreachStatement (hc : c.Inside ts) (hinner : c.here.isFinish = false) :
    Grants (foreachStatement p) c (Stmt.Stands ts c) := by
  have hnext := (hc.next hinner).1
  refine .step (gives_advance c) (.after hnext.clear.inside fun item c₁ h₁ => ?_)
  have hbuilt (index : Option String) {c₂ : Cursor} (h₂ : c.Leads ts c₂) : Grants (do
      let _ ← consumeKeyword .inWord "'in'"
      let iterable ← p.expression
      let body ← p.body true
      return Stmt.foreach (← spanFrom c.here) item iterable body index) c₂ (Stmt.Stands ts c) := by
    refine .after h₂.clear.inside fun _ c₃ h₃ => ?_
    have hopened := h₂.then h₃
    refine hp.nested.expression.bind hopened.clear.inside fun iterable c₄ h₄ hiterable => ?_
    refine (hp.body true h₄.clear.inside).bind fun body c₅ h₅ => .step (gives_spanFrom _ c₅) (.pure ?_)
    have hpassed := hopened.then (h₄.then h₅.leads.onto).onto
    refine ⟨hpassed, Stmt.fits_built rfl hpassed.le ?_ (List.forall_mem_singleton.2 (.inl ?_)) id⟩
    · exact (h₅.fits.mono (Nat.le_trans hopened.onto.front_le h₄.onto.front_le) (Nat.le_refl _)).lined
    · exact hiterable.mono hopened.onto.front_le (h₅.leads.onto.back_le h₄.clear)
  have hnamed := hnext.then h₁
  refine .after hnamed.clear.inside fun _ c₂ h₂ => ?_
  have hopened := hnamed.then h₂
  split
  · refine (Moves.moves hopened.clear.inside).some.bind ?_
    rintro _ c₃ ⟨index, rfl, h₃⟩
    exact hbuilt (some index) (hopened.then h₃)
  · exact .step (gives_pure _ _) (hbuilt none hopened)

theorem grants_defineStatement (hc : c.Inside ts) : Grants (defineStatement p) c (Stmt.Stands ts c) := by
  have hnext := hc.onto_next
  refine .step (gives_advance c) (.after (hnext.inside hc) fun name c₁ h₁ => ?_)
  refine .after ((hnext.trans h₁).inside hc) fun params c₂ h₂ => ?_
  have hopened := (hnext.trans h₁).trans h₂
  refine (hp.body false (hopened.inside hc)).bind fun body c₃ h₃ => .step (gives_spanFrom _ c₃) (.pure ?_)
  have hpassed := hopened.leads h₃.leads
  refine ⟨hpassed, Stmt.fits_built rfl hpassed.le ?_ (by simp [Stmt.expressions]) id⟩
  exact (h₃.fits.mono hopened.front_le (Nat.le_refl _)).lined

theorem grants_attemptStatement (inLoop : Bool) (hc : c.Inside ts) :
    Grants (attemptStatement p inLoop) c (Stmt.Stands ts c) := by
  have hnext := hc.onto_next
  refine .step (gives_advance c) ((hp.body inLoop (hnext.inside hc)).bind fun tryBlock c₁ h₁ => ?_)
  have hpassed := hnext.leads h₁.leads
  have hbuilt (errorVar : Option String) {c₂ : Cursor} (h₂ : c₁.Onto ts c₂) : Grants (do
      let catchBlock ← p.body inLoop
      return Stmt.attempt (← spanFrom c.here) tryBlock catchBlock errorVar) c₂ (Stmt.Stands ts c) := by
    refine (hp.body inLoop (hpassed.then h₂).clear.inside).bind fun catchBlock c₃ h₃ => .step (gives_spanFrom _ c₃) ?_
    have hend := hpassed.then (h₂.leads h₃.leads).onto
    refine .pure ⟨hend, Stmt.fits_built rfl hend.le ?_ (by simp [Stmt.expressions]) id⟩
    have htry := (h₁.fits.mono hnext.front_le (Nat.le_refl _)).lined
    exact htry.behind hpassed.le h₃.fits (Nat.le_trans hpassed.clear.gap h₂.front_le)
  refine .after hpassed.clear.inside fun _ c₂ h₂ => ?_
  refine .after (hpassed.then h₂).clear.inside fun _ c₃ h₃ => .step (gives_here c₃) ?_
  have hbehind := h₂.trans h₃
  split
  · refine .after (hpassed.then hbehind).clear.inside fun _ c₄ h₄ => ?_
    exact .step (gives_pure _ _) (hbuilt _ (hbehind.trans h₄))
  · exact .step (gives_pure _ _) (hbuilt none hbehind)

theorem grants_onStatement (hc : c.Inside ts) : Grants (onStatement p) c (Stmt.Stands ts c) := by
  have hnext := hc.onto_next
  refine .step (gives_advance c) ?_
  refine (placing_word hp.nested.expression _).bind (hnext.inside hc) fun event c₁ h₁ hevent => ?_
  refine (hp.body false h₁.clear.inside).bind fun body c₂ h₂ => .step (gives_spanFrom _ c₂) (.pure ?_)
  have hpassed := hnext.leads (h₁.then h₂.leads.onto)
  refine ⟨hpassed, Stmt.fits_built rfl hpassed.le ?_ (List.forall_mem_singleton.2 (.inl ?_)) id⟩
  · exact (h₂.fits.mono (Nat.le_trans hnext.front_le h₁.onto.front_le) (Nat.le_refl _)).lined
  · exact hevent.mono hnext.front_le (h₂.leads.onto.back_le h₁.clear)

theorem grants_keyValuesFrom_succ {i n : Nat} {done : List (String × Expr)} (hc : c.Clear ts) (hi : i ≤ c.front)
    (hdone : Expr.Lined i c.back (done.reverse.map (·.2)))
    (hmore : ∀ {c done}, c.Clear ts → i ≤ c.front → Expr.Lined i c.back (done.reverse.map (·.2)) →
      Grants (keyValuesFrom p n done) c fun entries c' => c.Onto ts c' ∧ Expr.Lined i c'.back (entries.map (·.2))) :
    Grants (keyValuesFrom p (n + 1) done) c fun entries c' =>
      (c.here.endsStatement = true ∧ c' = c ∧ entries = done.reverse) ∨
        c.Leads ts c' ∧ Expr.Lined i c'.back (entries.map (·.2)) := by
  have hvalue {q : Parse Expr} (hq : Parse.Placing ts q) {c₁ : Cursor} (h₁ : c.Leads ts c₁) : Grants (do
      let value ← q
      let _ ← acceptSymbol .comma
      keyValuesFrom p n ((c.here.lexeme, value) :: done)) c₁ fun entries c' =>
        (c.here.endsStatement = true ∧ c' = c ∧ entries = done.reverse) ∨
          c.Leads ts c' ∧ Expr.Lined i c'.back (entries.map (·.2)) := by
    refine hq.bind h₁.clear.inside fun value c₂ h₂ hvalue => .after h₂.clear.inside fun _ c₃ h₃ => ?_
    have hpassed := h₁.then (h₂.then h₃).onto
    have hlined : Expr.Lined i c₂.back (((c.here.lexeme, value) :: done).reverse.map (·.2)) := by
      rw [List.reverse_cons, List.map_append]
      exact (hdone.after hc h₁.onto).behind (Nat.le_trans hi h₁.le) hvalue h₁.clear.gap
    have hrest := hmore hpassed.clear (Nat.le_trans hi hpassed.onto.front_le) (hlined.after h₂.clear h₃)
    exact hrest.mono fun entries c₄ h => .inr ⟨hpassed.then h.1, h.2⟩
  refine .step (gives_here c) ?_
  split
  · rename_i hends
    exact .pure (.inl ⟨hends, rfl, rfl⟩)
  · split
    · rename_i hname
      have hnext := (hc.inside.next (isFinish_of_plain (isPlain_of_nameLike hname))).1
      refine .step (gives_advance c) (.after hnext.clear.inside fun _ c₁ h₁ => ?_)
      obtain ⟨b, hb, -⟩ := gives_atBareWord c₁
      refine .step hb ?_
      split
      · exact hvalue (placing_word hp.nested.expression _) (hnext.then h₁)
      · exact hvalue hp.nested.expression (hnext.then h₁)
    · exact .expected _

theorem grants_keyValuesFrom {i n : Nat} {done : List (String × Expr)} (hc : c.Clear ts) (hi : i ≤ c.front)
    (hdone : Expr.Lined i c.back (done.reverse.map (·.2))) :
    Grants (keyValuesFrom p n done) c fun entries c' => c.Onto ts c' ∧ Expr.Lined i c'.back (entries.map (·.2)) := by
  induction n generalizing c done with
  | zero => exact .pure ⟨.refl, hdone⟩
  | succ n ih =>
    refine (grants_keyValuesFrom_succ hp hc hi hdone ih).mono fun entries c' h => ?_
    rcases h with ⟨-, rfl, rfl⟩ | h
    · exact ⟨.refl, hdone⟩
    · exact ⟨h.1.onto, h.2⟩

/-- Without a pair the object stands at the token that ends the statement. -/
theorem grants_keyValues (hc : c.Clear ts) :
    Grants (keyValues p) c fun e c' => c.Onto ts c' ∧ e.Held ts c.front c'.back := by
  refine .step (gives_here c) (.step (gives_rounds c) ?_)
  refine (grants_keyValuesFrom_succ hp hc (Nat.le_refl _) .nil (grants_keyValuesFrom hp)).bind fun entries c₁ h => ?_
  refine .step (gives_spanFrom _ c₁) (.pure ?_)
  rcases h with ⟨hends, rfl, rfl⟩ | ⟨h₁, hlined⟩
  · have hvacant : (Expr.object (c₁.spanFrom c₁.here) []).Throughout Spaced :=
      throughout_of_lined (spanFrom_proper hc.inside.proper) .nil
    exact ⟨.refl, .inr ⟨.pairs hc.inside.here_mem hends rfl, hvacant⟩⟩
  · exact ⟨h₁.onto, .inl (fits_built rfl h₁.le hlined)⟩

theorem grants_emitStatement (hc : c.Inside ts) : Grants (emitStatement p) c (Stmt.Stands ts c) := by
  have hnext := hc.onto_next
  refine .step (gives_advance c) ?_
  refine (placing_word hp.nested.expression _).bind (hnext.inside hc) fun event c₁ h₁ hevent => ?_
  have hpassed := hnext.leads h₁
  have hbuilt {payload : Option Expr} {c₂ : Cursor} (h₂ : c₁.Onto ts c₂)
      (hpayload : ∀ e ∈ payload.toList, e.Held ts c₁.front c₂.back) :
      Grants (do return Stmt.emit (← spanFrom c.here) event payload) c₂ (Stmt.Stands ts c) := by
    refine .step (gives_spanFrom _ c₂) (.pure ⟨hpassed.then h₂, Stmt.fits_built rfl (hpassed.then h₂).le .nil ?_ id⟩)
    refine List.forall_mem_cons.2 ⟨.inl (hevent.mono hnext.front_le (h₂.back_le h₁.clear)), fun e he => ?_⟩
    exact (hpayload e he).mono hpassed.onto.front_le (Nat.le_refl _)
  refine .step (gives_get c₁) ?_
  split
  · refine (grants_keyValues hp h₁.clear).some.bind ?_
    rintro _ c₂ ⟨payload, rfl, h₂⟩
    exact hbuilt h₂.1 (List.forall_mem_singleton.2 h₂.2)
  · split
    · exact .step (gives_pure _ _) (hbuilt .refl (by simp))
    · refine (hp.nested.expression.grants h₁.clear.inside).some.bind ?_
      rintro _ c₂ ⟨payload, rfl, h₂⟩
      exact hbuilt h₂.leads.onto (List.forall_mem_singleton.2 (.inl h₂.fits))

theorem grants_messageUntil {words : List Keyword} (hwords : ∀ k ∈ words, k = .into ∨ k = .default ∨ k = .toWord)
    (hc : c.Inside ts) :
    Grants (messageUntil p words) c fun e c' =>
      c.Onto ts c' ∧ c.front ≤ e.span.start.offset ∧ e.Held ts c.front c'.back := by
  refine grants_message hp.nested.expression (fun t ht => ?_) (fun t ht => (Bool.or_eq_false_iff.1 ht).1) hc
  rcases Bool.or_eq_true_iff.1 ht with ht | ht
  · exact .inl ht
  · obtain ⟨k, hk, hkeyword⟩ := List.any_eq_true.1 ht
    rw [hasKeyword_iff] at hkeyword
    rcases hwords k hk with rfl | rfl | rfl
    · exact .inr (.inl hkeyword)
    · exact .inr (.inr (.inl hkeyword))
    · exact .inr (.inr (.inr hkeyword))

def OperandsHeld (ts : List Token) (c : Cursor) (request : Command Expr) (c' : Cursor) : Prop :=
  c.Onto ts c' ∧ ∀ e ∈ request.operands.map (·.2), e.Held ts c.front c'.back

theorem grants_wordCommand (what : String) {build : Expr → Command Expr}
    (hbuild : ∀ e, (build e).operands.map (·.2) = [e]) (hc : c.Inside ts) :
    Grants (do return build (← word p.expression what)) c (OperandsHeld ts c) := by
  refine (placing_word hp.nested.expression what).bind hc fun e c₁ h₁ he => .pure ⟨h₁.onto, ?_⟩
  rw [hbuild]
  exact List.forall_mem_singleton.2 (.inl he)

theorem grants_messageCommand {build : Expr → Command Expr} (hbuild : ∀ e, (build e).operands.map (·.2) = [e])
    (hc : c.Inside ts) : Grants (do return build (← messageUntil p [])) c (OperandsHeld ts c) := by
  refine (grants_messageUntil hp (by simp) hc).bind fun e c₁ h => .pure ⟨h.1, ?_⟩
  rw [hbuild]
  exact List.forall_mem_singleton.2 h.2.2

omit hp in
/-- The variable behind the operands changes nothing about them. -/
theorem grants_intoCommand {es : List Expr} {c₁ : Cursor} (hc : c.Clear ts) (h₁ : c.Onto ts c₁)
    {build : String → Command Expr} (hbuild : ∀ v, (build v).operands.map (·.2) = es)
    (hes : ∀ e ∈ es, e.Held ts c.front c₁.back) :
    Grants (do return build (← intoVariable)) c₁ (OperandsHeld ts c) := by
  refine .after (h₁.inside hc.inside) fun v c₂ h₂ => .pure ⟨h₁.trans h₂, ?_⟩
  rw [hbuild]
  exact fun e he => (hes e he).mono (Nat.le_refl _) (h₂.back_le (h₁.clear hc))

theorem grants_promptCommand (hc : c.Clear ts) : Grants (do
      let message ← messageUntil p [.into, .default]
      let default ← do
        if ← acceptKeyword .default then some <$> messageUntil p [.into] else pure none
      return .prompt message default (← intoVariable)) c (OperandsHeld ts c) := by
  refine (grants_messageUntil hp (by simp) hc.inside).bind fun e c₁ ⟨h₁, _, he⟩ => ?_
  refine .after (h₁.inside hc.inside) fun _ c₂ h₂ => ?_
  have hbehind := h₁.trans h₂
  have he₂ := he.mono (Nat.le_refl _) (h₂.back_le (h₁.clear hc))
  split
  · refine (grants_messageUntil hp (by simp) (hbehind.inside hc.inside)).some.bind ?_
    rintro _ c₃ ⟨d, rfl, h₃, -, hd⟩
    have hheld : ∀ e' ∈ [e, d], e'.Held ts c.front c₃.back := by
      refine List.forall_mem_cons.2 ⟨he₂.mono (Nat.le_refl _) (h₃.back_le (hbehind.clear hc)), ?_⟩
      exact List.forall_mem_singleton.2 (hd.mono hbehind.front_le (Nat.le_refl _))
    exact grants_intoCommand hc (hbehind.trans h₃) (fun _ => rfl) hheld
  · exact .step (gives_pure _ _) (grants_intoCommand hc hbehind (fun _ => rfl) (List.forall_mem_singleton.2 he₂))

theorem grants_writeCommand (hc : c.Clear ts) : Grants (do
      let content ← messageUntil p [.toWord]
      let _ ← consumeKeyword .toWord "'to'"
      return .write content (← word p.expression "file path")) c (OperandsHeld ts c) := by
  refine (grants_messageUntil hp (by simp) hc.inside).bind fun content c₁ ⟨h₁, _, hcontent⟩ => ?_
  refine .after (h₁.inside hc.inside) fun _ c₂ h₂ => ?_
  have hbehind := h₁.trans h₂
  refine (placing_word hp.nested.expression _).bind (hbehind.inside hc.inside) fun path c₃ h₃ hpath => .pure ?_
  refine ⟨(hbehind.leads h₃).onto, List.forall_mem_cons.2 ⟨?_, List.forall_mem_singleton.2 (.inl ?_)⟩⟩
  · exact hcontent.mono (Nat.le_refl _) ((h₂.trans h₃.onto).back_le (h₁.clear hc))
  · exact hpath.mono hbehind.front_le (Nat.le_refl _)

theorem grants_launchCommand (hc : c.Inside ts) : Grants (do
      let app ← word p.expression "application id"
      let params ← do
        if ← acceptKeyword .withWord then some <$> keyValues p else pure none
      return .launch app params) c (OperandsHeld ts c) := by
  refine (placing_word hp.nested.expression _).bind hc fun app c₁ h₁ happ => ?_
  refine .after h₁.clear.inside fun _ c₂ h₂ => ?_
  have hpassed := h₁.then h₂
  have happ₂ := happ.mono (Nat.le_refl _) (h₂.back_le h₁.clear)
  split
  · refine (grants_keyValues hp hpassed.clear).some.bind ?_
    rintro _ c₃ ⟨params, rfl, h₃, hparams⟩
    refine .pure ⟨(hpassed.then h₃).onto, List.forall_mem_cons.2 ⟨.inl ?_, List.forall_mem_singleton.2 ?_⟩⟩
    · exact happ₂.mono (Nat.le_refl _) (h₃.back_le hpassed.clear)
    · exact hparams.mono hpassed.onto.front_le (Nat.le_refl _)
  · exact .step (gives_pure _ _) (.pure ⟨hpassed.onto, List.forall_mem_singleton.2 (.inl happ₂)⟩)

theorem grants_command {k : Keyword} {operands : Parse (Command Expr)} (hcommand : command? p k = some operands)
    (hc : c.Clear ts) : Grants operands c (OperandsHeld ts c) := by
  have hword (what : String) {build : Expr → Command Expr} (hbuild : ∀ e, (build e).operands.map (·.2) = [e]) :
      Grants (do return build (← word p.expression what)) c (OperandsHeld ts c) :=
    grants_wordCommand hp what hbuild hc.inside
  have hnone {request : Command Expr} (hrequest : request.operands.map (·.2) = []) :
      Grants (pure request) c (OperandsHeld ts c) := .pure ⟨.refl, by simp [hrequest]⟩
  unfold command? at hcommand
  split at hcommand
  all_goals cases hcommand
  · exact grants_messageCommand hp (fun _ => rfl) hc.inside
  · exact grants_messageCommand hp (fun _ => rfl) hc.inside
  · refine (grants_messageUntil hp (by simp) hc.inside).bind fun e c₁ h => ?_
    exact grants_intoCommand hc h.1 (fun _ => rfl) (List.forall_mem_singleton.2 h.2.2)
  · exact grants_promptCommand hp hc
  · exact grants_writeCommand hp hc
  · refine (placing_word hp.nested.expression _).bind hc.inside fun path c₁ h₁ hpath => ?_
    exact grants_intoCommand hc h₁.onto (fun _ => rfl) (List.forall_mem_singleton.2 (.inl hpath))
  · exact hword _ fun _ => rfl
  · exact hword _ fun _ => rfl
  · exact grants_launchCommand hp hc.inside
  · refine .step (gives_at _ c) ?_
    split
    · exact hnone rfl
    · exact hword _ fun _ => rfl
  · refine .step (gives_at _ c) ?_
    split
    · exact hnone rfl
    · refine hp.nested.expression.bind hc.inside fun e c₁ h₁ he => .pure ⟨h₁.onto, ?_⟩
      exact List.forall_mem_singleton.2 (.inl he)
  · exact hword _ fun _ => rfl
  · exact hword _ fun _ => rfl
  · exact hword _ fun _ => rfl
  · exact hword _ fun _ => rfl

theorem grants_otherCommand (hc : c.Inside ts) (hinner : c.here.isFinish = false) :
    Grants (otherCommand p) c (Stmt.Stands ts c) := by
  have hnext := (hc.next hinner).1
  refine .step (gives_advance c) (.step (gives_rounds _) (.after hnext.clear.inside fun name c₁ h₁ => ?_))
  have hnamed := hnext.then h₁
  refine (grants_spacedArguments hp.nested hnamed.clear).bind fun arguments c₂ h₂ => .step (gives_spanFrom _ c₂) ?_
  have hpassed := hnamed.then h₂.1
  have harray : (Expr.array (c₂.spanFrom c.here) arguments).Fits c.front c₂.back :=
    fits_built rfl hpassed.le (h₂.2.mono hnamed.le (Nat.le_refl _))
  exact .pure ⟨hpassed, Stmt.fits_built rfl hpassed.le .nil (List.forall_mem_singleton.2 (.inl harray)) id⟩

theorem grants_printStatement (hc : c.Inside ts) (hhere : c.here.content = .keyword .print) :
    Grants (do
      let _ ← advance
      let span ← spanFrom c.here
      return Stmt.print span (← messageUntil p [])) c (Stmt.Stands ts c) := by
  have hinner : c.here.isFinish = false := by simp [isFinish, hhere]
  have hnext := hc.next hinner
  refine .step (gives_advance c) (.step (gives_spanFrom _ _) ?_)
  refine (grants_messageUntil hp (by simp) hnext.1.clear.inside).bind fun message c₁ h => .pure ?_
  obtain ⟨h₁, hstart, hmessage⟩ := h
  have hspan := hc.spanFrom_next hinner
  have hproper := hc.proper
  rw [hspan]
  refine ⟨hnext.1.then h₁, Nat.le_refl _, hproper, ?_, .intro ⟨⟨⟨hproper, .nil _ _⟩, ?_, ?_⟩, ?_⟩ ?_⟩
  · have hback := h₁.back_le hnext.1.clear
    rwa [hnext.2] at hback
  · simp [Stmt.blocks]
  · exact List.forall_mem_singleton.2 hmessage.throughout
  · refine ⟨⟨c.here, hc.here_mem, hhere, rfl⟩, ?_⟩
    have hgap := hnext.1.clear.gap
    rw [hnext.2] at hgap
    exact Nat.le_trans hgap hstart
  · simp [Stmt.blocks]

theorem grants_statementOf (inLoop : Bool) (hc : c.Inside ts) :
    Grants (statementOf p inLoop) c (Stmt.Stands ts c) := by
  have hargument : Grants (if beginsArgument c.here then expressionStatement p else expected "statement") c
      (Stmt.Stands ts c) := by
    split
    · exact grants_expressionStatement hp hc
    · exact .expected _
  refine .step (gives_here c) ?_
  split <;> rename_i hhere
  all_goals try have hinner : c.here.isFinish = false := by simp [isFinish, hhere]
  · exact grants_variableStatement hp hc
  · exact grants_setStatement hp hc
  · exact grants_printStatement hp hc hhere
  · exact grants_branchStatement hp inLoop hc
  · exact grants_loopStatement hp hc hinner
  · have hnext := (hc.next hinner).1
    refine .step (gives_advance c) ((grants_conditionalLoop hp hnext.clear.inside hnext.onto.front_le).mono ?_)
    exact fun s c₁ h₁ => ⟨hnext.then h₁.1.onto, h₁.2⟩
  · exact grants_foreachStatement hp hc hinner
  · exact grants_controlStatement hc hinner inLoop (fun _ => rfl) (fun _ => rfl) (fun _ => rfl) fun _ => id
  · exact grants_controlStatement hc hinner inLoop (fun _ => rfl) (fun _ => rfl) (fun _ => rfl) fun _ => id
  · exact grants_returnStatement hp hc hinner
  · exact grants_defineStatement hp hc
  · exact grants_attemptStatement hp inLoop hc
  · exact grants_onStatement hp hc
  · exact grants_emitStatement hp hc
  · exact grants_expressionStatement hp hc
  · split
    · rename_i operands hcommand
      have hnext := (hc.next hinner).1
      refine .step (gives_advance c) ((grants_command hp hcommand hnext.clear).bind fun request c₁ h => ?_)
      obtain ⟨h₁, hrequest⟩ := h
      have hpassed := hnext.then h₁
      refine .step (gives_spanFrom _ c₁) (.pure ⟨hpassed, Stmt.fits_built rfl hpassed.le .nil (fun e he => ?_) id⟩)
      exact (hrequest e he).mono hnext.onto.front_le (Nat.le_refl _)
    · exact hargument
  · obtain ⟨b, hb, -⟩ := gives_atBareWord c
    refine .step hb ?_
    split
    · exact grants_otherCommand hp hc hinner
    · exact grants_expressionStatement hp hc
  · exact hargument

end

section

variable {statement : Parse Stmt} (hstatement : ∀ {c}, c.Inside ts → Grants statement c (Stmt.Stands ts c))
include hstatement

theorem grants_statementsFrom {stops : Parse Bool} (hstops : ∀ c, Grants stops c fun _ c' => c' = c) {i n : Nat}
    {done : List Stmt} (hc : c.Inside ts) (hi : i ≤ c.front) (hdone : Stmt.Strung ts i c done.reverse) :
    Grants (statementsFrom statement endStatement stops n done) c fun ss c' =>
      c.Onto ts c' ∧ Stmt.Strung ts i c' ss := by
  induction n generalizing c done with
  | zero => exact .pure ⟨.refl, hdone⟩
  | succ n ih =>
    refine .after hc fun _ c₁ h₁ => (hstops c₁).bind fun stop _ hstay => ?_
    subst hstay
    split
    · exact .pure ⟨h₁, hdone.after h₁⟩
    · refine (hstatement (h₁.inside hc)).bind fun s c₂ h₂ => .after h₂.leads.clear.inside fun _ c₃ h₃ => ?_
      have hpassed := h₁.leads (h₂.leads.then h₃)
      have hmore : Stmt.Strung ts i c₃ (s :: done).reverse := by
        rw [List.reverse_cons]
        exact ((hdone.after h₁).snoc (Nat.le_trans hi h₁.front_le) h₂).after h₃
      refine (ih hpassed.clear.inside (Nat.le_trans hi hpassed.onto.front_le) hmore).mono fun ss c₄ h => ?_
      exact ⟨hpassed.onto.trans h.1, h.2⟩

theorem grants_block (hc : c.Inside ts) : Grants (block statement) c (Block.Stands ts c) := by
  refine .after hc fun _ c₁ h₁ => ?_
  refine (grants_consume (fun t ht => isFinish_eq_false ((hasSymbol_iff t _).1 ht)) _ (h₁.inside hc)).bind ?_
  rintro _ c₂ ⟨rfl, -, h₂⟩
  refine .step (gives_rounds c₂) ?_
  refine (grants_statementsFrom hstatement (fun c₃ => ?_) h₂.clear.inside (Nat.le_trans h₂.le h₂.clear.gap)
    (.inl rfl)).bind fun ss c₃ ⟨h₃, hss⟩ => ?_
  · refine .step (gives_at _ c₃) ?_
    split
    · exact .pure rfl
    · refine .step (gives_at _ c₃) ?_
      split
      · exact .expected _
      · exact .pure rfl
  · refine (grants_consume (fun t ht => isFinish_eq_false ((hasSymbol_iff t _).1 ht)) _
      (h₃.inside h₂.clear.inside)).bind ?_
    rintro _ c₄ ⟨-, -, h₄⟩
    refine .step (gives_spanFrom _ c₄) (.pure ?_)
    have hpassed := h₂.then (h₃.leads h₄).onto
    obtain ⟨hstart, hstop⟩ := spanFrom_offsets rfl hpassed.le
    have hproper := spanFrom_proper (c := c₄) (h₁.inside hc).proper
    have hholds := (hss.after h₄.onto).holds hproper hstart fun _ => Nat.le_of_eq hstop.symm
    refine ⟨h₁.leads hpassed, Nat.le_trans h₁.front_le (Nat.le_of_eq hstart.symm), hproper, Nat.le_of_eq hstop, ?_⟩
    exact ⟨hholds.1, hholds.2⟩

end

theorem grants_statement (m n : Nat) (inLoop : Bool) (hc : c.Inside ts) :
    Grants (statement (nested m) n inLoop) c (Stmt.Stands ts c) := by
  induction n generalizing c inLoop with
  | zero => exact .expected _
  | succ n ih =>
    have hparts : Parts.Placing ts ⟨nested m, fun inner => block (statement (nested m) n inner),
        statement (nested m) n inLoop⟩ :=
      ⟨placing_nested m, fun inner _ hc => grants_block (ih inner) hc, ih inLoop⟩
    exact grants_statementOf hparts inLoop hc

theorem grants_program (lines : Array String) (hc : c.Inside ts) :
    Grants (program lines) c fun p _ =>
      p.span.Holds (p.statements.map Stmt.span) ∧ ∀ s ∈ p.statements, s.Throughout (Stmt.Placed ts) := by
  refine .step (gives_here c) (.step (gives_rounds c) ?_)
  refine (grants_statementsFrom (grants_statement _ _ false) (fun c₁ => .of_gives (gives_at _ c₁) rfl) hc
    (Nat.le_refl c.front) (.inl rfl)).bind fun ss c₁ ⟨_, hss⟩ => .step (gives_spanFrom _ c₁) (.pure ?_)
  exact hss.holds (spanFrom_proper hc.proper) rfl fun hback => Nat.le_of_eq (spanFrom_offsets rfl hback).2.symm

end Parse

instance tokenize_laid (source : String) (file : Option String) : Laid (tokenize source file) := by
  have htiles := tokenize_tiles source file
  obtain ⟨body, last, htokens, hfinish, hstart, hstop, hbody⟩ := htiles.ends
  refine ⟨⟨body, last, htokens, hfinish⟩, fun t ht => ?_, htiles.ordered⟩
  cases hinner : t.isFinish with
  | false => exact Nat.le_of_lt (htiles.covers t ht hinner)
  | true =>
    rw [htokens, List.mem_append, List.mem_singleton] at ht
    rcases ht with ht | rfl
    · rw [hbody t ht] at hinner
      contradiction
    · omega

theorem Cursor.inside_ofTokens {ts : List Token} [Laid ts] (source : Option String) :
    (Cursor.ofTokens source ts).Inside ts := by
  obtain ⟨us, t, rfl, -⟩ : ∃ us t, ts = us ++ [t] ∧ t.isFinish = true := Laid.ends
  cases us <;> exact List.suffix_refl _

theorem parse_placed {source : String} {file : Option String} {p : Program} (h : parse source file = .ok p) :
    p.span.Holds (p.statements.map Stmt.span) ∧
      ∀ s ∈ p.statements, s.Throughout (Stmt.Placed (tokenize source file)) := by
  simp only [parse, parseTokens] at h
  split at h
  · rename_i found c hrun
    cases h
    exact (Parse.grants_program _ (Cursor.inside_ofTokens _)).of_run hrun
  · cases h

/-- Spans nest: in a parsed script, statements and blocks lie inside of what they are a part of, in order and apart from
each other, and so do the operands, elements, arguments and entries of every expression. -/
theorem parse_spaced {source : String} {file : Option String} {p : Program} (h : parse source file = .ok p) :
    p.Spaced := by
  obtain ⟨hholds, hplaced⟩ := parse_placed h
  exact ⟨hholds, fun s hs => (hplaced s hs).mono fun _ h => h.spaced⟩

def chainSource : String :=
  "if $x == [f($y), (a)] { print $x.y }\nelse if $z { return } # rest\nemit done \"hi $x\""

theorem parse_spaced_chain : ∃ p, parse chainSource none = .ok p ∧ p.Spaced := by
  obtain ⟨p, hp⟩ := exists_ok (show (parse chainSource none).isOk = true by decide +kernel)
  exact ⟨p, hp, parse_spaced hp⟩

/-- Every statement of a parsed script covers the expressions for which a token was read, but for `print`, whose span is
its keyword, in front of the message. -/
theorem parse_covering {source : String} {file : Option String} {p : Program} (h : parse source file = .ok p) :
    ∀ s ∈ p.statements, s.Throughout (Stmt.Covering (tokenize source file)) := by
  obtain ⟨-, hplaced⟩ := parse_placed h
  exact fun s hs => (hplaced s hs).mono fun _ h => h.covering

def printingSource : String := "set $x = a\nprint $x"

theorem parse_covering_printing : ∃ p, parse printingSource none = .ok p ∧
    ∀ s ∈ p.statements, s.Throughout (Stmt.Covering (tokenize printingSource none)) := by
  obtain ⟨p, hp⟩ := exists_ok (show (parse printingSource none).isOk = true by decide +kernel)
  exact ⟨p, hp, parse_covering hp⟩

/-- The number is read from a token, and `print` does not cover it. -/
theorem print_ends_before_message : ∃ p, parse "print 1" none = .ok p ∧
    ∃ s ∈ p.statements, ∃ e ∈ s.expressions, ¬e.span.Within s.span ∧ ¬e.Vacant (tokenize "print 1" none) := by
  obtain ⟨p, hp⟩ := exists_ok (show (parse "print 1" none).isOk = true by decide +kernel)
  have hfound : (parse "print 1" none).toOption.all (fun p => p.statements.any fun s => s.expressions.any fun e =>
      s.span.stop.offset < e.span.stop.offset && e matches .literal _ (.number _)) = true := by decide +kernel
  rw [hp] at hfound
  obtain ⟨s, hs, hfound⟩ := List.any_eq_true.1 hfound
  obtain ⟨e, he, hfound⟩ := List.any_eq_true.1 hfound
  obtain ⟨hbehind, hnumber⟩ := Bool.and_eq_true_iff.1 hfound
  refine ⟨p, hp, s, hs, e, he, fun hwithin => ?_, fun hvacant => ?_⟩
  · exact Nat.not_lt.2 hwithin.stop (of_decide_eq_true hbehind)
  · cases hvacant <;> contradiction

end DeskScript
