import DeskScript.Proofs.Syntax.Leading
import DeskScript.Proofs.Syntax.PassingExpression
import DeskScript.Proofs.Syntax.Spacing

set_option autoImplicit false

/-!
# Places of the nodes of an expression

Each parser of an expression, over parsers for the levels nested in it, gives a well spaced expression that lies on the
tokens it passes.
-/

namespace DeskScript

open Token

namespace Expr

abbrev Stands (ts : List Token) (c : Cursor) (e : Expr) (c' : Cursor) : Prop :=
  Span.Stands span (Throughout Spaced) ts c e c'

variable {c : Cursor} {e : Expr}

theorem fits_built {start : Token} (hspan : e.span = c.spanFrom start) (hstart : start.span.start.offset ≤ c.back)
    (hparts : Lined start.span.start.offset c.back e.parts) : e.Fits start.span.start.offset c.back := by
  obtain ⟨hi, hj⟩ := Cursor.spanFrom_offsets hspan hstart
  have hproper : e.span.start.offset ≤ e.span.stop.offset := by omega
  refine ⟨Nat.le_of_eq hi.symm, hproper, Nat.le_of_eq hj, throughout_of_lined hproper ?_⟩
  rwa [hi, hj]

theorem fits_token {ts : List Token} [Laid ts] (hc : c.Inside ts) (hinner : c.here.isFinish = false)
    (hspan : e.span = c.here.span) (hparts : e.parts = []) : e.Fits c.front c.next.back := by
  have hproper : e.span.start.offset ≤ e.span.stop.offset := by
    rw [hspan]
    exact hc.proper
  refine ⟨?_, hproper, ?_, throughout_of_lined hproper ?_⟩
  · rw [hspan]
    exact Nat.le_refl _
  · rw [hspan, (hc.next hinner).2]
  · rw [hparts]
    exact .nil

end Expr

namespace Parse

open Cursor DeskScript.Expr

variable {α : Type} {ts : List Token} {c : Cursor}

/-- A parser of expressions that gives a well spaced one on the tokens it passes. -/
structure Placing (ts : List Token) (p : Parse Expr) : Prop where
  grants : ∀ {c}, c.Inside ts → Grants p c (Expr.Stands ts c)

theorem Placing.bind {p : Parse Expr} {f : Expr → Parse α} {Q : α → Cursor → Prop} (hp : Placing ts p)
    (hc : c.Inside ts) (hf : ∀ e c', c.Leads ts c' → e.Fits c.front c'.back → Grants (f e) c' Q) :
    Grants (p >>= f) c Q :=
  (hp.grants hc).bind fun e c' h => hf e c' h.leads h.fits

variable [Laid ts]

theorem grants_constant (value : Literal) (hc : c.Inside ts) (hinner : c.here.isFinish = false) :
    Grants (constant value) c (Expr.Stands ts c) :=
  .of_gives (gives_constant value c) ⟨(hc.next hinner).1, fits_token hc hinner rfl rfl⟩

section

variable {operand : Parse Expr} (ho : Placing ts operand)
include ho

theorem grants_chainFrom {ω : Type} (operator? : Token → Option ω) {build : Span → ω → Expr → Expr → Expr}
    (hspan : ∀ span op left right, (build span op left right).span = span)
    (hparts : ∀ span op left right, (build span op left right).parts = [left, right]) {start : Token} {n : Nat}
    {left : Expr} (hc : c.Clear ts) (hleft : left.Fits start.span.start.offset c.back) :
    Grants (chainFrom operand operator? build start n left) c fun e c' =>
      c.Onto ts c' ∧ e.Fits start.span.start.offset c'.back := by
  induction n generalizing c left with
  | zero => exact .pure ⟨.refl, hleft⟩
  | succ n ih =>
    refine .step (gives_here c) ?_
    split
    · exact .pure ⟨.refl, hleft⟩
    · rename_i op _
      refine .after hc.inside fun _ c₁ h₁ => ?_
      refine ho.bind (h₁.inside hc.inside) fun right c₂ h₂ hright => .step (gives_spanFrom _ _) ?_
      have hpassed := h₁.leads h₂
      have hboth := hleft.lined.behind hleft.le hright (Nat.le_trans hc.gap h₁.front_le)
      have hbuilt : (build (c₂.spanFrom start) op left right).Fits start.span.start.offset c₂.back := by
        refine fits_built (hspan _ _ _ _) (Nat.le_trans hleft.le (hpassed.onto.back_le hc)) ?_
        rw [hparts]
        exact hboth
      exact (ih hpassed.clear hbuilt).mono fun e c₃ h => ⟨hpassed.onto.trans h.1, h.2⟩

theorem placing_chain {ω : Type} (operator? : Token → Option ω) {build : Span → ω → Expr → Expr → Expr}
    (hspan : ∀ span op left right, (build span op left right).span = span)
    (hparts : ∀ span op left right, (build span op left right).parts = [left, right]) :
    Placing ts (chain operand operator? build) := by
  refine ⟨fun {c} hc => .step (gives_here c) ?_⟩
  refine ho.bind hc fun first c₁ h₁ hfirst => .step (gives_rounds c₁) ?_
  exact (grants_chainFrom ho operator? hspan hparts h₁.clear hfirst).mono fun e c₂ h => ⟨h₁.then h.1, h.2⟩

theorem grants_itemsFrom (close : Symbol) {i n : Nat} {done : List Expr} (hc : c.Clear ts) (hi : i ≤ c.back)
    (hdone : Lined i c.back done.reverse) :
    Grants (itemsFrom operand close n done) c fun es c' => c.Onto ts c' ∧ Lined i c'.back es := by
  induction n generalizing c done with
  | zero => exact .pure ⟨.refl, hdone⟩
  | succ n ih =>
    refine .after hc.inside fun comma c₁ h₁ => ?_
    split
    · refine .step (gives_at _ c₁) ?_
      split
      · exact .pure ⟨h₁, hdone.after hc h₁⟩
      · refine ho.bind (h₁.inside hc.inside) fun item c₂ h₂ hitem => ?_
        have hpassed := h₁.leads h₂
        have hmore : Lined i c₂.back (item :: done).reverse := by
          rw [List.reverse_cons]
          exact hdone.behind hi hitem (Nat.le_trans hc.gap h₁.front_le)
        refine (ih hpassed.clear (Nat.le_trans hi (hpassed.onto.back_le hc)) hmore).mono fun es c₃ h => ?_
        exact ⟨hpassed.onto.trans h.1, h.2⟩
    · exact .pure ⟨h₁, hdone.after hc h₁⟩

theorem grants_itemsUntil (close : Symbol) (what : String) (hc : c.Clear ts) :
    Grants (itemsUntil operand close what) c fun es c' => c.Onto ts c' ∧ Lined c.back c'.back es := by
  have hclose {es : List Expr} {c₁ : Cursor} (h₁ : c.Onto ts c₁) (hes : Lined c.back c₁.back es) :
      Grants (do let _ ← consumeSymbol close what; return es) c₁ fun es c' =>
        c.Onto ts c' ∧ Lined c.back c'.back es :=
    .after (h₁.inside hc.inside) fun _ c₂ h₂ => .pure ⟨h₁.trans h₂, hes.after (h₁.clear hc) h₂⟩
  refine .step (gives_at _ c) ?_
  split
  · exact .step (gives_pure _ c) (hclose .refl .nil)
  · refine ho.bind hc.inside fun first c₁ h₁ hfirst => .step (gives_rounds c₁) ?_
    refine (grants_itemsFrom ho close h₁.clear (h₁.onto.back_le hc) ?_).bind fun es c₂ h => ?_
    · exact (hfirst.mono hc.gap (Nat.le_refl _)).lined
    · exact hclose (h₁.onto.trans h.1) h.2

theorem grants_parenArguments (hc : c.Clear ts) :
    Grants (parenArguments operand) c fun es c' => c.Onto ts c' ∧ Lined c.back c'.back es := by
  refine .after hc.inside fun _ c₁ h₁ => ?_
  refine (grants_itemsUntil ho _ _ (h₁.clear hc)).mono fun es c₂ h => ⟨h₁.trans h.1, ?_⟩
  exact h.2.mono (h₁.back_le hc) (Nat.le_refl _)

theorem grants_arrayLiteral (hc : c.Inside ts) (hinner : c.here.isFinish = false) :
    Grants (arrayLiteral operand) c (Expr.Stands ts c) := by
  have hnext := (hc.next hinner).1
  refine .step (gives_advance c) ?_
  refine (grants_itemsUntil ho _ _ hnext.clear).bind fun es c₁ h => .step (gives_spanFrom _ c₁) (.pure ?_)
  have hpassed := hnext.then h.1
  exact ⟨hpassed, fits_built rfl hpassed.le (h.2.mono hnext.le (Nat.le_refl _))⟩

theorem grants_entriesFrom {i n : Nat} {done : List (String × Expr)} (hc : c.Clear ts) (hi : i ≤ c.back)
    (hdone : Lined i c.back (done.reverse.map (·.2))) :
    Grants (entriesFrom operand n done) c fun entries c' => c.Onto ts c' ∧ Lined i c'.back (entries.map (·.2)) := by
  induction n generalizing c done with
  | zero => exact .pure ⟨.refl, hdone⟩
  | succ n ih =>
    refine .step (gives_at _ c) ?_
    split
    · exact .pure ⟨.refl, hdone⟩
    · refine .step (gives_here c) ?_
      split
      · exact .expected _
      · rename_i key _
        refine .after hc.inside fun _ c₁ h₁ => .after (h₁.inside hc.inside) fun _ c₂ h₂ => ?_
        refine .after ((h₁.trans h₂).inside hc.inside) fun _ c₃ h₃ => ?_
        have hfirst := (h₁.trans h₂).trans h₃
        refine ho.bind (hfirst.inside hc.inside) fun value c₄ h₄ hvalue => ?_
        have hpassed := hfirst.leads h₄
        have hmore : Lined i c₄.back (((key, value) :: done).reverse.map (·.2)) := by
          rw [List.reverse_cons, List.map_append]
          exact hdone.behind hi hvalue (Nat.le_trans hc.gap hfirst.front_le)
        refine .after hpassed.clear.inside fun _ c₅ h₅ => .after (hpassed.then h₅).clear.inside fun comma c₆ h₆ => ?_
        have hclosed := hpassed.then (h₅.trans h₆)
        split
        · refine .after hclosed.clear.inside fun _ c₇ h₇ => ?_
          have hagain := hclosed.then h₇
          refine (ih hagain.clear (Nat.le_trans hi (hagain.onto.back_le hc)) ?_).mono fun entries c₈ h => ?_
          · exact hmore.after hpassed.clear ((h₅.trans h₆).trans h₇)
          · exact ⟨hagain.onto.trans h.1, h.2⟩
        · exact .pure ⟨hclosed.onto, hmore.after hpassed.clear (h₅.trans h₆)⟩

theorem grants_objectLiteral (hc : c.Inside ts) (hinner : c.here.isFinish = false) :
    Grants (objectLiteral operand) c (Expr.Stands ts c) := by
  have hnext := (hc.next hinner).1
  refine .step (gives_advance c) (.after hnext.clear.inside fun _ c₁ h₁ => .step (gives_rounds c₁) ?_)
  have hopened := hnext.then h₁
  refine (grants_entriesFrom ho hopened.clear hopened.le .nil).bind fun entries c₂ h₂ => ?_
  refine .after (hopened.then h₂.1).clear.inside fun _ c₃ h₃ => ?_
  refine .after (hopened.then (h₂.1.trans h₃)).clear.inside fun _ c₄ h₄ => .step (gives_spanFrom _ c₄) (.pure ?_)
  have hpassed := hopened.then ((h₂.1.trans h₃).trans h₄)
  exact ⟨hpassed, fits_built rfl hpassed.le (h₂.2.after (hopened.then h₂.1).clear (h₃.trans h₄))⟩

end

theorem grants_gluedWord (hc : c.Inside ts) (hinner : c.here.isFinish = false) :
    Grants gluedWord c (Expr.Stands ts c) := by
  have hnext := (hc.next hinner).1
  refine .step (gives_advance c) (.step (gives_rounds _) (.after hnext.clear.inside fun _ c₁ h₁ => ?_))
  refine .step (gives_spanFrom _ c₁) (.pure ⟨hnext.then h₁, ?_⟩)
  exact fits_built rfl (hnext.then h₁).le .nil

theorem placing_word {expression : Parse Expr} (hexpression : Placing ts expression) (what : String) :
    Placing ts (word expression what) := by
  refine ⟨fun {c} hc => .step (gives_here c) ?_⟩
  split
  · exact hexpression.grants hc
  · exact hexpression.grants hc
  · exact hexpression.grants hc
  · exact hexpression.grants hc
  · split
    · rename_i hpart
      exact grants_gluedWord hc (isFinish_of_plain (isPlain_of_wordPart hpart))
    · exact .expected _

structure Nested.Placing (ts : List Token) (nested : Nested) : Prop where
  expression : Parse.Placing ts nested.expression
  unary : Parse.Placing ts nested.unary

section

variable {nested : Nested} (hn : nested.Placing ts)
include hn

theorem grants_spacedFrom {i n : Nat} {done : List Expr} (hc : c.Clear ts) (hi : i ≤ c.back)
    (hdone : Lined i c.back done.reverse) :
    Grants (spacedFrom nested n done) c fun es c' => c.Onto ts c' ∧ Lined i c'.back es := by
  induction n generalizing c done with
  | zero => exact .pure ⟨.refl, hdone⟩
  | succ n ih =>
    have hargument {p : Parse Expr} (hp : Parse.Placing ts p) :
        Grants (p >>= fun argument => spacedFrom nested n (argument :: done)) c fun es c' =>
          c.Onto ts c' ∧ Lined i c'.back es := by
      refine hp.bind hc.inside fun argument c₁ h₁ hargument => ?_
      have hmore : Lined i c₁.back (argument :: done).reverse := by
        rw [List.reverse_cons]
        exact hdone.behind hi hargument hc.gap
      refine (ih h₁.clear (Nat.le_trans hi (h₁.onto.back_le hc)) hmore).mono fun es c₂ h => ?_
      exact ⟨h₁.onto.trans h.1, h.2⟩
    refine .step (gives_at _ c) ?_
    split
    · obtain ⟨b, hb, -⟩ := gives_atBareWord c
      refine .step hb ?_
      split
      · exact hargument (placing_word hn.expression _)
      · exact hargument hn.unary
    · exact .pure ⟨.refl, hdone⟩

theorem grants_spacedArguments (hc : c.Clear ts) :
    Grants (spacedArguments nested) c fun es c' => c.Onto ts c' ∧ Lined c.back c'.back es :=
  .step (gives_rounds c) (grants_spacedFrom hn hc (Nat.le_refl _) .nil)

theorem grants_namedCall (hc : c.Inside ts) (hinner : c.here.isFinish = false) :
    Grants (namedCall nested) c (Expr.Stands ts c) := by
  have hnext := (hc.next hinner).1
  refine .step (gives_advance c) ?_
  refine (grants_parenArguments hn.expression hnext.clear).bind fun es c₁ h => .step (gives_spanFrom _ c₁) (.pure ?_)
  have hpassed := hnext.then h.1
  exact ⟨hpassed, fits_built rfl hpassed.le (h.2.mono hnext.le (Nat.le_refl _))⟩

theorem grants_callCommand (hc : c.Inside ts) (hinner : c.here.isFinish = false) :
    Grants (callCommand nested) c (Expr.Stands ts c) := by
  have hnext := (hc.next hinner).1
  refine .step (gives_advance c) (.step (gives_here _) ?_)
  split
  · refine .after hnext.clear.inside fun _ c₁ h₁ => .step (gives_here c₁) ?_
    have hnamed := hnext.then h₁
    have hbuilt {es : List Expr} {c₂ : Cursor} (h : c₁.Onto ts c₂ ∧ Lined c₁.back c₂.back es) :
        Grants (do return Expr.call (← spanFrom c.here) c.next.here.lexeme es) c₂ (Expr.Stands ts c) :=
      .step (gives_spanFrom _ c₂) (.pure ⟨hnamed.then h.1, fits_built rfl (hnamed.then h.1).le
        (h.2.mono hnamed.le (Nat.le_refl _))⟩)
    split
    · exact (grants_parenArguments hn.expression hnamed.clear).bind fun es c₂ h => hbuilt h
    · exact (grants_spacedArguments hn hnamed.clear).bind fun es c₂ h => hbuilt h
  · exact .expected _

theorem placing_primary : Placing ts (primary nested) := by
  refine ⟨fun {c} hc => .step (gives_here c) (.step (gives_get c) ?_)⟩
  split <;> rename_i hhere
  all_goals try have hinner : c.here.isFinish = false := by simp [isFinish, hhere]
  · exact grants_constant _ hc hinner
  · exact grants_constant _ hc hinner
  · exact .step (gives_advance c) (.pure ⟨(hc.next hinner).1, fits_token hc hinner rfl rfl⟩)
  · exact grants_constant _ hc hinner
  · exact grants_constant _ hc hinner
  · exact grants_constant _ hc hinner
  · exact .step (gives_advance c) (.pure ⟨(hc.next hinner).1, fits_token hc hinner rfl rfl⟩)
  · refine .after hc fun _ c₁ h₁ => ?_
    refine hn.expression.bind (h₁.inside hc) fun inner c₂ h₂ hinside => ?_
    refine .after h₂.clear.inside fun _ c₃ h₃ => .pure ⟨(h₁.leads h₂).then h₃, ?_⟩
    exact hinside.mono h₁.front_le (h₃.back_le h₂.clear)
  · exact grants_arrayLiteral hn.expression hc hinner
  · exact grants_objectLiteral hn.expression hc hinner
  · exact grants_callCommand hn hc hinner
  · dsimp only
    split
    · exact grants_namedCall hn hc hinner
    · exact grants_constant _ hc hinner
  · dsimp only
    split
    · exact grants_namedCall hn hc hinner
    · exact .expected _
  · exact .expected _

end

theorem placing_memberName : Placing ts memberName := by
  refine ⟨fun {c} hc => .step (gives_here c) ?_⟩
  split
  · rename_i hname
    exact grants_constant _ hc (isFinish_of_plain (isPlain_of_nameLike hname))
  · exact .expected _

section

variable {expression : Parse Expr} (hexpression : Placing ts expression)
include hexpression

theorem grants_accessor? (hc : c.Clear ts) :
    Grants (accessor? expression) c fun key? c' => c.Onto ts c' ∧ ∀ key ∈ key?, key.Fits c.back c'.back := by
  refine .step (gives_attached c) ?_
  split
  · refine .after hc.inside fun dot c₁ h₁ => ?_
    split
    · refine .map ((placing_memberName.grants (h₁.inside hc.inside)).mono fun key c₂ h => ?_)
      refine ⟨(h₁.leads h.leads).onto, fun key' hkey => ?_⟩
      obtain rfl := Option.some.inj hkey
      exact h.fits.mono (Nat.le_trans hc.gap h₁.front_le) (Nat.le_refl _)
    · refine .after (h₁.inside hc.inside) fun bracket c₂ h₂ => ?_
      have hopened := h₁.trans h₂
      split
      · refine hexpression.bind (hopened.inside hc.inside) fun key c₃ h₃ hkey => ?_
        refine .after h₃.clear.inside fun _ c₄ h₄ => .pure ⟨(hopened.leads (h₃.then h₄)).onto, fun key' hkey' => ?_⟩
        obtain rfl := Option.some.inj hkey'
        exact hkey.mono (Nat.le_trans hc.gap hopened.front_le) (h₄.back_le h₃.clear)
      · exact .pure ⟨hopened, by simp⟩
  · exact .pure ⟨.refl, by simp⟩

theorem grants_accessorsFrom {start : Token} {n : Nat} {base : Expr} (hc : c.Clear ts)
    (hbase : base.Fits start.span.start.offset c.back) :
    Grants (accessorsFrom expression start n base) c fun e c' =>
      c.Onto ts c' ∧ e.Fits start.span.start.offset c'.back := by
  induction n generalizing c base with
  | zero => exact .pure ⟨.refl, hbase⟩
  | succ n ih =>
    refine (grants_accessor? hexpression hc).bind fun key? c₁ h => ?_
    cases key? with
    | none => exact .pure ⟨h.1, hbase.mono (Nat.le_refl _) (h.1.back_le hc)⟩
    | some key =>
      have hkey := h.2 key rfl
      have hbuilt : (Expr.property (c₁.spanFrom start) base key).Fits start.span.start.offset c₁.back :=
        fits_built rfl (Nat.le_trans hbase.le hkey.le) (hbase.lined.behind hbase.le hkey (Nat.le_refl _))
      refine .step (gives_spanFrom _ c₁) ((ih (h.1.clear hc) hbuilt).mono fun e c₂ h' => ?_)
      exact ⟨h.1.trans h'.1, h'.2⟩

end

section

variable {nested : Nested} (hn : nested.Placing ts)
include hn

theorem placing_accessed : Placing ts (accessed nested) := by
  refine ⟨fun {c} hc => .step (gives_here c) ?_⟩
  refine (placing_primary hn).bind hc fun base c₁ h₁ hbase => .step (gives_rounds c₁) ?_
  exact (grants_accessorsFrom hn.expression h₁.clear hbase).mono fun e c₂ h => ⟨h₁.then h.1, h.2⟩

theorem placing_unaryLevel : Placing ts (unaryLevel nested) := by
  refine ⟨fun {c} hc => .step (gives_here c) ?_⟩
  split
  · refine .after hc fun _ c₁ h₁ => hn.unary.bind (h₁.inside hc) fun operand c₂ h₂ hoperand => ?_
    have hpassed := h₁.leads h₂
    refine .step (gives_spanFrom _ c₂) (.pure ⟨hpassed, fits_built rfl hpassed.le ?_⟩)
    exact (hoperand.mono h₁.front_le (Nat.le_refl _)).lined
  · exact (placing_accessed hn).grants hc

theorem placing_orLevel : Placing ts (orLevel nested) := by
  have hbinary {p : Parse Expr} (operator? : Token → Option BinaryOp) (hp : Placing ts p) :
      Placing ts (chain p operator? .binary) :=
    placing_chain hp operator? (fun _ _ _ _ => rfl) fun _ _ _ _ => rfl
  have hlogic {p : Parse Expr} (operator? : Token → Option LogicOp) (hp : Placing ts p) :
      Placing ts (chain p operator? .logic) :=
    placing_chain hp operator? (fun _ _ _ _ => rfl) fun _ _ _ _ => rfl
  exact hlogic _ (hlogic _ (hbinary _ (hbinary _ (hbinary _ (placing_unaryLevel hn)))))

end

/-- Expressions are well spaced, however deep they are nested. -/
theorem placing_nested (n : Nat) : (nested n).Placing ts := by
  induction n with
  | zero => exact ⟨⟨fun _ => .expected _⟩, ⟨fun _ => .expected _⟩⟩
  | succ n ih => exact ⟨placing_orLevel ih, placing_unaryLevel ih⟩

end Parse

end DeskScript
