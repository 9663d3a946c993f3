import DeskScript.Proofs.Syntax.ForwardStatement

set_option autoImplicit false

/-!
# The rounds of loops

A loop of the parser is written with the number of rounds that it may take. Each of its rounds ends the loop or passes a
token before the next one begins, so more rounds than there are tokens ahead are never taken: the number bounds nothing.
-/

namespace DeskScript

namespace Parse

open Cursor Token

variable {α β σ : Type}

/-- A round of a loop, for however many rounds may follow it: it ends the loop, or it goes on with the next round from a
cursor that is beyond the one where the round began. -/
inductive Round (loop : Nat → σ → Parse β) (c₀ : Cursor) (body : Nat → Parse β) (c : Cursor) : Prop where
  | ends (r : Except SyntaxTrouble (β × Cursor)) (h : ∀ n, (body n).run c = r)
  | goesOn (s : σ) (c' : Cursor) (hbeyond : c₀.Beyond c') (h : ∀ n, (body n).run c = (loop n s).run c')

def Advances (loop : Nat → σ → Parse β) (c : Cursor) : Prop := ∀ s, Round loop c (fun n => loop (n + 1) s) c

/-- A loop whose rounds end it or pass a token, so that it does not depend on the number of rounds, if there are more of
them than tokens ahead. -/
structure Progresses (loop : Nat → σ → Parse β) (c : Cursor) : Prop where
  advances : Advances loop c
  enough : ∀ n s, c.ahead < n → (loop n s).run c = (loop (c.ahead + 1) s).run c

def Forward (p : Parse α) : Prop := ∀ c : Cursor, c.Ends → InStep p p c

def Striding (p : Parse α) : Prop := ∀ c : Cursor, c.Ends → Strides p p c

theorem Striding.forward {p : Parse α} (h : Striding p) : Forward p := fun c hc => (h c hc).inStep

theorem Forward.alone {p : Parse α} [Along NoCall p p] : Forward p := fun _ _ => Along.forth

theorem Progresses.of_advances {loop : Nat → σ → Parse β} {c : Cursor} (hc : c.Ends)
    (h : ∀ c : Cursor, c.Ends → Advances loop c) : Progresses loop c := by
  refine ⟨h c hc, fun n s hn => ?_⟩
  -- on the number of tokens ahead, which each round makes smaller
  induction hahead : c.ahead using Nat.strong_induction_on generalizing c n s with
  | h ahead ih =>
    obtain ⟨m, rfl⟩ := Nat.exists_eq_add_of_lt hn
    cases h c hc s with
    | ends r h => rw [h, h]
    | goesOn s' c' hbeyond hgo =>
      have hlt := hbeyond.ahead_lt
      have hc' := hbeyond.forth.ends hc
      rw [hgo, hgo, ih c'.ahead (by omega) hc' (c.ahead + m) s' (by omega) rfl,
        ih c'.ahead (by omega) hc' ahead s' (by omega) rfl]

namespace Round

variable {loop : Nat → σ → Parse β} {c₀ c c' : Cursor} {p : Parse α} {f : Nat → α → Parse β} {body : Nat → Parse β}

/-- A round that does not depend on what follows it ends the loop. -/
theorem leave (q : Parse β) (h : ∀ n, body n = q) : Round loop c₀ body c := .ends (q.run c) fun n => by rw [h n]

theorem again (s : σ) (hc : c₀.Beyond c) (h : ∀ n, body n = loop n s) : Round loop c₀ body c :=
  .goesOn s c hc fun n => by rw [h n]

theorem after (hf : ∀ a c', p.run c = .ok (a, c') → Round loop c₀ (fun n => f n a) c') :
    Round loop c₀ (fun n => p >>= f n) c := by
  have hrun (n : Nat) := StateT.run_bind (m := Except SyntaxTrouble) p (f n) c
  cases hp : p.run c with
  | error e => exact .ends (.error e) fun n => by rw [hrun, hp]; rfl
  | ok found =>
    cases hf found.1 found.2 hp with
    | ends r h => exact .ends r fun n => by rw [hrun, hp]; exact h n
    | goesOn s c' hbeyond h => exact .goesOn s c' hbeyond fun n => by rw [hrun, hp]; exact h n

theorem look {a : α} (hp : Gives p c a c') (hf : Round loop c₀ (fun n => f n a) c') :
    Round loop c₀ (fun n => p >>= f n) c := by
  refine .after fun b c'' hrun => ?_
  rw [hp] at hrun
  cases hrun
  exact hf

theorem before (hp : Forward p) (hc : c₀.Ends) (hforth : c₀.Forth c)
    (hf : ∀ a c', c₀.Forth c' → Round loop c₀ (fun n => f n a) c') : Round loop c₀ (fun n => p >>= f n) c :=
  .after fun a c' hrun => hf a c' (hforth.trans ((hp c (hforth.ends hc)).forth hrun))

theorem pass (hp : Strides p p c) (hforth : c₀.Forth c)
    (hf : ∀ a c', c₀.Beyond c' → Round loop c₀ (fun n => f n a) c') : Round loop c₀ (fun n => p >>= f n) c :=
  .after fun a c' hrun => hf a c' (hforth.beyond (hp.beyond hrun))

theorem behind (hp : Forward p) (hc : c₀.Ends) (hbeyond : c₀.Beyond c)
    (hf : ∀ a c', c₀.Beyond c' → Round loop c₀ (fun n => f n a) c') : Round loop c₀ (fun n => p >>= f n) c :=
  .after fun a c' hrun => hf a c' (hbeyond.then ((hp c (hbeyond.forth.ends hc)).forth hrun))

theorem accept {test : Token → Bool} {f : Nat → Bool → Parse β} (hc : c₀.Ends) (hforth : c₀.Forth c)
    (htest : ∀ t, test t = true → t.isFinish = false) (hno : Round loop c₀ (fun n => f n false) c)
    (hyes : ∀ c', c₀.Beyond c' → Round loop c₀ (fun n => f n true) c') :
    Round loop c₀ (fun n => Parse.accept test >>= f n) c := by
  cases htoken : test c.here with
  | false => exact .look (gives_accept_not htoken) hno
  | true => exact .look (gives_accept htoken) (hyes c.next (hforth.beyond ((hforth.ends hc).beyond_next (htest _ htoken))))

end Round

theorem inner_symbol {s : Symbol} {t : Token} (h : t.hasSymbol s = true) : t.isFinish = false := by
  simp [isFinish, (hasSymbol_iff _ _).1 h]

theorem beyond_passing {f : Token → Parse β} {c c' : Cursor} {b : β} (hc : c.Ends) (hinner : c.here.isFinish = false)
    [∀ a, Along (Agree c) (f a) (f a)] (hrun : (advance >>= f).run c = .ok (b, c')) : c.Beyond c' := by
  have hstrides : Strides (advance >>= f) (advance >>= f) c := .passing hc hinner fun _ => inferInstance
  exact hstrides.beyond hrun

section

variable {p : Parse Expr} (hp : Forward p) {c : Cursor} (hc : c.Ends)
include hp hc

theorem advances_chainFrom {ω : Type} {operator? : Token → Option ω}
    (hoperator : ∀ {t op}, operator? t = some op → t.isPlain = true) (build : Span → ω → Expr → Expr → Expr)
    (start : Token) : Advances (chainFrom p operator? build start) c := by
  intro left
  simp only [chainFrom]
  refine .look (gives_here c) ?_
  cases hop : operator? c.here with
  | none => exact .leave (pure left) fun _ => rfl
  | some op =>
    refine .pass (.advance hc (isFinish_of_plain (hoperator hop))) (.refl c) fun _ _ h => ?_
    exact .behind hp hc h fun _ _ h => .behind .alone hc h fun _ _ h => .again _ h fun _ => rfl

theorem advances_itemsFrom (close : Symbol) : Advances (itemsFrom p close) c := by
  intro done
  simp only [itemsFrom]
  refine .accept hc (.refl c) (fun _ => inner_symbol) (.leave (pure _) fun _ => rfl) fun c' h => ?_
  refine .look (gives_at _ c') ?_
  cases c'.here.hasSymbol close with
  | true => exact .leave (pure _) fun _ => rfl
  | false => exact .behind hp hc h fun _ _ h => .again _ h fun _ => rfl

theorem advances_entriesFrom : Advances (entriesFrom p) c := by
  intro done
  simp only [entriesFrom]
  refine .look (gives_at _ c) ?_
  cases c.here.hasSymbol .rightBrace with
  | true => exact .leave (pure _) fun _ => rfl
  | false =>
    refine .look (gives_here c) ?_
    cases hkey : objectKey? c.here with
    | none => exact .leave (expected _) fun _ => rfl
    | some key =>
      refine .pass (.advance hc (isFinish_of_plain (isPlain_of_objectKey hkey))) (.refl c) fun _ _ h => ?_
      refine .behind .alone hc h fun _ _ h => .behind .alone hc h fun _ _ h => .behind hp hc h fun value _ h => ?_
      refine .behind .alone hc h fun _ _ h => .behind .alone hc h fun comma _ h => ?_
      cases comma with
      | true => exact .behind .alone hc h fun _ _ h => .again _ h fun _ => rfl
      | false => exact .leave (pure _) fun _ => rfl

theorem beyond_accessor? {key : Expr} {c' : Cursor} (hrun : (accessor? p).run c = .ok (some key, c')) : c.Beyond c' := by
  have : Along (Agree c) p p := .call fun c' h => hp c' (h.forth.ends hc)
  unfold accessor? acceptSymbol at hrun
  rw [run_bind_gives (gives_attached c)] at hrun
  split at hrun
  · cases hdot : c.here.hasSymbol .dot with
    | true =>
      rw [run_accept hdot] at hrun
      exact beyond_passing hc (inner_symbol hdot) hrun
    | false =>
      rw [run_accept_not hdot, if_neg Bool.false_ne_true] at hrun
      cases hbracket : c.here.hasSymbol .leftBracket with
      | true =>
        rw [run_accept hbracket] at hrun
        exact beyond_passing hc (inner_symbol hbracket) hrun
      | false =>
        rw [run_accept_not hbracket] at hrun
        cases hrun
  · cases hrun

/-- A round with an accessor that goes on from what the accessor is put behind, and one without it that ends the loop. -/
theorem round_accessor {loop : Nat → σ → Parse σ} (start : Token) (base : σ) (extend : Span → Expr → σ) :
    Round loop c (fun n => accessor? p >>= fun
      | none => pure base
      | some key => spanFrom start >>= fun span => loop n (extend span key)) c := by
  refine .after fun key c' hrun => ?_
  cases key with
  | none => exact .leave (pure base) fun _ => rfl
  | some key => exact .behind .alone hc (beyond_accessor? hp hc hrun) fun _ _ h => .again _ h fun _ => rfl

theorem advances_accessorsFrom (start : Token) : Advances (accessorsFrom p start) c := fun base =>
  round_accessor hp hc start base fun span key => .property span base key

theorem advances_targetFrom (start : Token) : Advances (targetFrom p start) c := fun target =>
  round_accessor hp hc start target fun span key => .property span target.toExpr key

end

section

variable {c : Cursor} (hc : c.Ends)
include hc

theorem advances_wordPartsFrom : Advances wordPartsFrom c := by
  intro text
  simp only [wordPartsFrom]
  refine .look (gives_at _ c) (.look (gives_attached c) ?_)
  cases hpart : isWordPart c.here && c.previous.adjacent c.here with
  | false => exact .leave (pure _) fun _ => rfl
  | true =>
    have hinner := isFinish_of_plain (isPlain_of_wordPart (Bool.and_eq_true_iff.1 hpart).1)
    exact .pass (.advance hc hinner) (.refl c) fun _ _ h => .again _ h fun _ => rfl

theorem advances_spacedFrom {nested : Nested} (hexpression : Striding nested.expression) (hunary : Striding nested.unary) :
    Advances (spacedFrom nested) c := by
  intro done
  simp only [spacedFrom]
  refine .look (gives_at _ c) ?_
  cases beginsArgument c.here with
  | false => exact .leave (pure _) fun _ => rfl
  | true =>
    obtain ⟨bare, hbare, -⟩ := gives_atBareWord c
    refine .look hbare ?_
    cases bare with
    | true =>
      exact .pass (strides_word hc (hexpression c hc) _) (.refl c) fun _ _ h => .again _ h fun _ => rfl
    | false => exact .pass (hunary c hc) (.refl c) fun _ _ h => .again _ h fun _ => rfl

theorem advances_skipWhile {test : Token → Bool} (htest : ∀ t, test t = true → t.isFinish = false) :
    Advances (fun n (_ : Unit) => skipWhile test n) c := by
  intro _
  simp only [skipWhile]
  exact .accept hc (.refl c) htest (.leave (pure _) fun _ => rfl) fun _ h => .again () h fun _ => rfl

theorem advances_skipMessage {stops : Token → Bool} (hstops : ∀ t, t.isFinish = true → stops t = true) :
    Advances (skipMessage stops) c := by
  intro lexemes
  simp only [skipMessage]
  refine .look (gives_here c) ?_
  cases hstop : stops c.here with
  | true => exact .leave (pure _) fun _ => rfl
  | false =>
    cases c.here.isFault with
    | true => exact .leave (expected _) fun _ => rfl
    | false =>
      have hinner : c.here.isFinish = false := by
        by_contra hfinish
        rw [hstops _ (by simpa using hfinish)] at hstop
        contradiction
      exact .pass (.advance hc hinner) (.refl c) fun _ _ h => .again _ h fun _ => rfl

theorem advances_parametersFrom : Advances parametersFrom c := by
  intro done
  simp only [parametersFrom]
  refine .accept hc (.refl c) (fun _ => inner_symbol) (.leave (pure _) fun _ => rfl) fun c' h => ?_
  exact .behind .alone hc h fun _ _ h => .again _ h fun _ => rfl

theorem advances_keyValuesFrom {p : Parts} (hp : Striding p.expression) : Advances (keyValuesFrom p) c := by
  intro done
  simp only [keyValuesFrom]
  refine .look (gives_here c) ?_
  cases c.here.endsStatement with
  | true => exact .leave (pure _) fun _ => rfl
  | false =>
    cases hname : c.here.isNameLike with
    | false => exact .leave (expected _) fun _ => rfl
    | true =>
      refine .pass (.advance hc (isFinish_of_plain (isPlain_of_nameLike hname))) (.refl c) fun _ _ h => ?_
      refine .behind .alone hc h fun _ c' h => ?_
      obtain ⟨bare, hbare, -⟩ := gives_atBareWord c'
      refine .look hbare ?_
      cases bare with
      | true =>
        refine .behind (fun c'' hc'' => (strides_word hc'' (hp c'' hc'') _).inStep) hc h fun _ _ h => ?_
        exact .behind .alone hc h fun _ _ h => .again _ h fun _ => rfl
      | false =>
        refine .behind hp.forward hc h fun _ _ h => ?_
        exact .behind .alone hc h fun _ _ h => .again _ h fun _ => rfl

theorem advances_statementsFrom {s : Parse Stmt} {e : Parse Unit} {b : Parse Bool} (hs : Striding s) (he : Forward e)
    (hb : Forward b) : Advances (statementsFrom s e b) c := by
  intro done
  simp only [statementsFrom]
  refine .before .alone hc (.refl c) fun _ c' h => .before hb hc h fun stop c' h => ?_
  cases stop with
  | true => exact .leave (pure _) fun _ => rfl
  | false =>
    refine .pass (hs c' (h.ends hc)) h fun _ _ h => ?_
    exact .behind he hc h fun _ _ h => .again _ h fun _ => rfl

end

end Parse

end DeskScript
