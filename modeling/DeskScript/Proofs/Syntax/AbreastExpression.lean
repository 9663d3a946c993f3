import DeskScript.Proofs.Syntax.Abreast
import DeskScript.Proofs.Syntax.Places

set_option autoImplicit false

/-!
# Expressions side by side

The parsers of expressions run in tandem in two sources that hold the same text, and what they give differs in places
only.
-/

namespace DeskScript

open Token

namespace Parse

open DeskScript.Expr Passing

variable {α β : Type} {S : Excerpt} {k m : Nat} {c₁ c₂ : Cursor}

structure Paired (S : Excerpt) (m : Nat) (p q : Parse Expr) : Prop where
  phrasal : Phrasal p
  tandem : ∀ {k c₁ c₂}, S.Beside c₁ c₂ → c₁.ahead < m → Tandem S k p q c₁ c₂ Same

theorem Paired.onward {p q : Parse Expr} (h : Paired S m p q) : Onward p := ⟨h.phrasal.unfilled.sound⟩

theorem Paired.bind {p q : Parse Expr} {f : Expr → Parse α} {g : Expr → Parse β} {R : α → β → Prop}
    [∀ a, Onward (f a)] (hpq : Paired S m p q) (h : S.Beside c₁ c₂) (hm : c₁.ahead < m)
    (hf : ∀ a b c₁' c₂', Same a b → S.Abreast c₁' c₂' → c₁'.ahead < c₁.ahead → Tandem S k (f a) (g b) c₁' c₂' R) :
    Tandem S k (p >>= f) (q >>= g) c₁ c₂ R := by
  have := hpq.onward
  refine .through (j := k) h.ends (fun hc hrun hk => ?_) (hpq.tandem h hm) fun a b c₁' c₂' ha h' hrun => ?_
  · exact Nat.le_trans hk (Onward.ahead_le hc hrun)
  · exact hf a b c₁' c₂' ha h' (hpq.phrasal.ahead_lt h.ends hrun)

structure Operators {ω : Type} (operator? : Token → Option ω) : Prop where
  content : ∀ {t u : Token}, u.content = t.content → operator? u = operator? t
  plain : ∀ t op, operator? t = some op → t.isPlain = true

theorem Operators.border {ω : Type} {operator? : Token → Option ω} (h : Operators operator?) {t : Token}
    {more : List Token} (ht : t.Borders more) : operator? t = none := by
  cases hop : operator? t with
  | none => rfl
  | some op =>
    have hplain := h.plain t op hop
    unfold isPlain at hplain
    rcases ht with ht | ⟨ht, -⟩ <;> simp [ht] at hplain

section

variable {o₁ o₂ : Parse Expr} (ho : Paired S m o₁ o₂)
include ho

theorem tandem_chainFrom {ω : Type} {operator? : Token → Option ω} (hoperator : Operators operator?)
    {build : Span → ω → Expr → Expr → Expr}
    (hbuild : ∀ s₁ s₂ op {l₁ l₂ r₁ r₂}, Same l₁ l₂ → Same r₁ r₂ → Same (build s₁ op l₁ r₁) (build s₂ op l₂ r₂))
    {start₁ start₂ : Token} {n₁ n₂ : Nat} {left₁ left₂ : Expr} (hleft : Same left₁ left₂) (h : S.Abreast c₁ c₂)
    (hm : c₁.ahead < m) (hn₁ : c₁.ahead < n₁) (hn₂ : c₂.ahead < n₂) :
    Tandem S k (chainFrom o₁ operator? build start₁ n₁ left₁) (chainFrom o₂ operator? build start₂ n₂ left₂) c₁ c₂
      Same := by
  have (n : Nat) (left : Expr) : Onward (chainFrom o₁ operator? build start₁ n left) :=
    ⟨(passing_chainFrom ho.phrasal hoperator.plain build start₁ n left).sound⟩
  induction n₁ generalizing n₂ c₁ c₂ left₁ left₂ with
  | zero => omega
  | succ n₁ ih =>
    obtain ⟨n₂, rfl⟩ : ∃ n, n₂ = n + 1 := ⟨n₂ - 1, by omega⟩
    unfold chainFrom
    refine .step (gives_here c₁) (gives_here c₂) ?_
    rcases h.toBeside.cases with ⟨halike, hnext, hlt, -, -⟩ | ⟨hhere₁, -, hhere₂, -⟩
    · rw [hoperator.content halike.content]
      split
      · exact .pure hleft h
      · refine .step (gives_advance c₁) (gives_advance c₂) ?_
        refine ho.bind hnext.toBeside (by omega) fun _ _ c₁' c₂' hright h' hle => ?_
        refine .step (gives_spanFrom _ c₁') (gives_spanFrom _ c₂') ?_
        have hahead := h.ahead_eq
        have hahead' := h'.ahead_eq
        exact ih (hbuild _ _ _ hleft hright) h' (by omega) (by omega) (by omega)
    · rw [hhere₁, hhere₂, hoperator.border S.borders₁, hoperator.border S.borders₂]
      exact .pure hleft h

theorem paired_chain {ω : Type} {operator? : Token → Option ω} (hoperator : Operators operator?)
    {build : Span → ω → Expr → Expr → Expr}
    (hbuild : ∀ s₁ s₂ op {l₁ l₂ r₁ r₂}, Same l₁ l₂ → Same r₁ r₂ → Same (build s₁ op l₁ r₁) (build s₂ op l₂ r₂)) :
    Paired S m (chain o₁ operator? build) (chain o₂ operator? build) := by
  have (start : Token) (n : Nat) (left : Expr) : Onward (chainFrom o₁ operator? build start n left) :=
    ⟨(passing_chainFrom ho.phrasal hoperator.plain build start n left).sound⟩
  refine ⟨passing_chain ho.phrasal hoperator.plain build, fun {k c₁ c₂} h hm => ?_⟩
  unfold chain
  refine .step (gives_here c₁) (gives_here c₂) ?_
  refine ho.bind h hm fun _ _ c₁' c₂' hleft h' hle => ?_
  refine .step (gives_rounds c₁') (gives_rounds c₂') ?_
  exact tandem_chainFrom ho hoperator hbuild hleft h' (by omega) (Nat.lt_succ_self _) (Nat.lt_succ_self _)

theorem tandem_itemsFrom (close : Symbol) {n₁ n₂ : Nat} {done₁ done₂ : List Expr} (hdone : SameAll done₁ done₂)
    (h : S.Abreast c₁ c₂) (hm : c₁.ahead < m) (hn₁ : c₁.ahead < n₁) (hn₂ : c₂.ahead < n₂) :
    Tandem S k (itemsFrom o₁ close n₁ done₁) (itemsFrom o₂ close n₂ done₂) c₁ c₂ SameAll := by
  have (n : Nat) (done : List Expr) : Onward (itemsFrom o₁ close n done) :=
    ⟨(passing_itemsFrom ho.phrasal close n done).sound⟩
  induction n₁ generalizing n₂ c₁ c₂ done₁ done₂ with
  | zero => omega
  | succ n₁ ih =>
    obtain ⟨n₂, rfl⟩ : ∃ n, n₂ = n + 1 := ⟨n₂ - 1, by omega⟩
    unfold itemsFrom
    refine .accept (sorts_symbol _) h.toBeside (fun hnext hlt => ?_) (.pure hdone.reverse h)
    refine .at_ (sorts_symbol _) hnext.toBeside (fun _ => .pure hdone.reverse hnext) fun _ => ?_
    refine ho.bind hnext.toBeside (by omega) fun _ _ c₁' c₂' hitem h' hle => ?_
    have hahead := h.ahead_eq
    have hahead' := h'.ahead_eq
    exact ih (.cons hitem hdone) h' (by omega) (by omega) (by omega)

theorem tandem_itemsUntil {close : Symbol} (hl : close ≠ .leftBrace) (hr : close ≠ .rightBrace) (what : String)
    (h : S.Abreast c₁ c₂) (hm : c₁.ahead < m) :
    Tandem S k (itemsUntil o₁ close what) (itemsUntil o₂ close what) c₁ c₂ SameAll := by
  have (n : Nat) (done : List Expr) : Onward (itemsFrom o₁ close n done) :=
    ⟨(passing_itemsFrom ho.phrasal close n done).sound⟩
  have : Onward (consumeSymbol close what) := ⟨(passing_consumeSymbol hl hr what).unfilled.sound⟩
  unfold itemsUntil
  have hclose {done₁ done₂ : List Expr} {c₁ c₂ : Cursor} (hdone : SameAll done₁ done₂) (h : S.Abreast c₁ c₂) :
      Tandem S k (do let _ ← consumeSymbol close what; return done₁) (do let _ ← consumeSymbol close what; return done₂)
        c₁ c₂ SameAll :=
    .consume (sorts_symbol _) h.toBeside fun _ hnext _ => .pure hdone hnext
  refine .at_ (sorts_symbol _) h.toBeside (fun _ => ?_) fun _ => ?_
  · exact .step (gives_pure _ c₁) (gives_pure _ c₂) (hclose rfl h)
  · refine ho.bind h.toBeside hm fun _ _ c₁' c₂' hitem h' hle => ?_
    refine .step (gives_rounds c₁') (gives_rounds c₂') ?_
    refine .bind h'.ends (tandem_itemsFrom ho close (.cons hitem rfl) h' (by omega) (Nat.lt_succ_self _)
      (Nat.lt_succ_self _)) fun _ _ _ _ hdone h'' _ => hclose hdone h''

theorem tandem_parenArguments (h : S.Beside c₁ c₂) (hm : c₁.ahead ≤ m) :
    Tandem S k (parenArguments o₁) (parenArguments o₂) c₁ c₂ SameAll := by
  unfold parenArguments
  refine .consume (sorts_symbol _) h fun _ hnext hlt => ?_
  exact tandem_itemsUntil ho (by simp) (by simp) _ hnext (by omega)

theorem tandem_arrayLiteral (hnext : S.Abreast c₁.next c₂.next) (hm : c₁.next.ahead < m) :
    Tandem S k (arrayLiteral o₁) (arrayLiteral o₂) c₁ c₂ Same := by
  have : Onward (itemsUntil o₁ .rightBracket "']'") :=
    ⟨(passing_itemsUntil ho.phrasal (by simp) (by simp) _).sound⟩
  unfold arrayLiteral
  refine .step (gives_advance c₁) (gives_advance c₂) ?_
  refine .bind hnext.ends (tandem_itemsUntil ho (by simp) (by simp) _ hnext hm) fun _ _ c₁' c₂' hitems h' _ => ?_
  exact .step (gives_spanFrom _ c₁') (gives_spanFrom _ c₂') (.pure (same_array _ _ hitems) h')

theorem tandem_entriesFrom {n₁ n₂ : Nat} {done₁ done₂ : List (String × Expr)} (hdone : SameEntries done₁ done₂)
    (h : S.Abreast c₁ c₂) (hm : c₁.ahead ≤ m) (hn₁ : c₁.ahead < n₁) (hn₂ : c₂.ahead < n₂) :
    Tandem S 1 (entriesFrom o₁ n₁ done₁) (entriesFrom o₂ n₂ done₂) c₁ c₂ SameEntries := by
  have := ho.onward
  have (n : Nat) (done : List (String × Expr)) : Onward (entriesFrom o₁ n done) :=
    ⟨(passing_entriesFrom ho.phrasal n done).sound⟩
  have : Onward (acceptSymbol .comma) := ⟨(passing_acceptSymbol (by simp) (by simp)).sound⟩
  have hkey {t u : Token} (hcontent : u.content = t.content) (hlexeme : u.lexeme = t.lexeme) :
      objectKey? u = objectKey? t := by
    unfold objectKey?
    rw [hcontent, hlexeme]
  induction n₁ generalizing n₂ c₁ c₂ done₁ done₂ with
  | zero => omega
  | succ n₁ ih =>
    obtain ⟨n₂, rfl⟩ : ∃ n, n₂ = n + 1 := ⟨n₂ - 1, by omega⟩
    unfold entriesFrom
    refine .at_ (sorts_symbol _) h.toBeside (fun _ => .pure hdone.reverse h) fun _ => ?_
    refine .step (gives_here c₁) (gives_here c₂) ?_
    rcases h.toBeside.cases with ⟨halike, hnext, hlt, -, -⟩ | ⟨hhere₁, -, hhere₂, -⟩
    · rw [hkey halike.content halike.lexeme]
      split
      · exact .of_error rfl
      · refine .step (gives_advance c₁) (gives_advance c₂) ?_
        refine .consume (sorts_symbol _) hnext.toBeside fun _ h₁ hlt₁ => ?_
        refine .bind h₁.ends (tandem_skipNewlines h₁) fun _ _ _ _ _ h₂ hle₂ => ?_
        refine ho.bind h₂.toBeside (by omega) fun _ _ _ _ hvalue h₃ hle₃ => ?_
        refine .bind h₃.ends (tandem_skipNewlines h₃) fun _ _ c₁' c₂' _ h₄ hle₄ => ?_
        have hentries := hdone.cons ‹String› hvalue
        refine .accept (sorts_symbol _) h₄.toBeside (fun h₅ hlt₅ => ?_) (.pure hentries.reverse h₄)
        refine .bind h₅.ends (tandem_skipNewlines h₅) fun _ _ c₁' c₂' _ h₆ hle₆ => ?_
        have hahead := h.ahead_eq
        have hahead' := h₆.ahead_eq
        exact ih hentries h₆ (by omega) (by omega) (by omega)
    · have hborder : objectKey? S.border₁ = none := by
        unfold objectKey?
        rcases S.borders₁ with hb | ⟨hb, -⟩ <;> rw [hb]
      rw [hhere₁, hborder]
      exact .of_error rfl

/-- Behind the opening brace the closing brace is still to come, whatever line ends may stand between. -/
theorem tandem_objectLiteral (hnext : S.Abreast c₁.next c₂.next) (hm : c₁.next.ahead < m) :
    Tandem S k (objectLiteral o₁) (objectLiteral o₂) c₁ c₂ Same := by
  have (n : Nat) (done : List (String × Expr)) : Onward (entriesFrom o₁ n done) :=
    ⟨(passing_entriesFrom ho.phrasal n done).sound⟩
  unfold objectLiteral
  refine .step (gives_advance c₁) (gives_advance c₂) ?_
  refine .loosely (P := Closing Even) hnext.ends (fun _ c => ?_) (tandem_skipNewlines hnext) fun _ _ c₁' c₂' _ h₁ hle₁ => ?_
  · refine Passing.mono (look (gives_rounds c) ?_) fun _ => Closing.filled
    exact closing (passing_entriesFrom ho.phrasal _ _) fun _ _ => passing_objectEnd _ _
  refine .step (gives_rounds c₁') (gives_rounds c₂') ?_
  refine .loosely h₁.ends (fun _ c => (passing_objectEnd _ _).mono fun _ => Closing.filled)
    (tandem_entriesFrom ho rfl h₁ (by omega) (Nat.lt_succ_self _) (Nat.lt_succ_self _)) fun _ _ _ _ hentries h₂ _ => ?_
  refine .loosely (P := Closing Even) h₂.ends (fun _ c => ?_) (tandem_skipNewlines h₂) fun _ _ _ _ _ h₃ _ => ?_
  · refine Passing.mono (closed (passing_closeBrace _) ?_) fun _ => Closing.filled
    exact fun _ c' => look (gives_spanFrom _ c') (.pure _)
  refine .consume (sorts_symbol _) h₃.toBeside fun _ h₄ _ => ?_
  exact .step (gives_spanFrom _ _) (gives_spanFrom _ _) (.pure (same_object _ _ hentries) h₄)

end

theorem wordPart_border {t : Token} {more : List Token} (h : t.Borders more) : isWordPart t = false :=
  sorts_wordPart.border h

theorem tandem_wordPartsFrom {n₁ n₂ : Nat} (text : String) (h : S.Abreast c₁ c₂) (hn₁ : c₁.ahead < n₁)
    (hn₂ : c₂.ahead < n₂) : Tandem S k (wordPartsFrom n₁ text) (wordPartsFrom n₂ text) c₁ c₂ (· = ·) := by
  induction n₁ generalizing n₂ c₁ c₂ text with
  | zero => omega
  | succ n₁ ih =>
    obtain ⟨n₂, rfl⟩ : ∃ n, n₂ = n + 1 := ⟨n₂ - 1, by omega⟩
    unfold wordPartsFrom
    refine .step (gives_at _ c₁) (gives_at _ c₂) (.step (gives_attached c₁) (gives_attached c₂) ?_)
    rcases h.toBeside.cases with ⟨halike, hnext, hlt, -, -⟩ | ⟨hhere₁, -, hhere₂, -⟩
    · rw [Beside.test sorts_wordPart h.toBeside, h.previous.adjacent halike]
      split
      · refine .step (gives_advance c₁) (gives_advance c₂) ?_
        rw [halike.lexeme]
        have hahead := h.ahead_eq
        have hahead' := hnext.ahead_eq
        exact ih _ hnext (by omega) (by omega)
      · exact .pure rfl h
    · rw [hhere₁, hhere₂, wordPart_border S.borders₁, wordPart_border S.borders₂]
      exact .pure rfl h

instance (n : Nat) (text : String) : Onward (wordPartsFrom n text) := ⟨(passing_wordPartsFrom n text).sound⟩

theorem tandem_gluedWord (halike : S.Alike c₁.here c₂.here) (hnext : S.Abreast c₁.next c₂.next) :
    Tandem S k gluedWord gluedWord c₁ c₂ Same := by
  unfold gluedWord
  refine .step (gives_advance c₁) (gives_advance c₂) (.step (gives_rounds c₁.next) (gives_rounds c₂.next) ?_)
  rw [halike.lexeme]
  refine .bind hnext.ends (tandem_wordPartsFrom _ hnext (Nat.lt_succ_self _) (Nat.lt_succ_self _)) ?_
  rintro text _ c₁' c₂' rfl h' -
  exact .step (gives_spanFrom _ c₁') (gives_spanFrom _ c₂') (.pure rfl h')

theorem tandem_constant (value : Literal) (hnext : S.Abreast c₁.next c₂.next) :
    Tandem S k (constant value) (constant value) c₁ c₂ Same :=
  .step (gives_advance c₁) (gives_advance c₂) (.pure rfl hnext)

section

variable {o₁ o₂ : Parse Expr} (ho : Paired S m o₁ o₂)
include ho

theorem paired_word (what : String) : Paired S m (word o₁ what) (word o₂ what) := by
  refine ⟨passing_word ho.phrasal what, fun {k c₁ c₂} h hm => ?_⟩
  refine .inner h (passing_word ho.phrasal what) fun halike hnext _ _ _ => ?_
  unfold word
  refine .step (gives_here c₁) (gives_here c₂) ?_
  rw [halike.content, Beside.test sorts_wordPart h]
  split
  · exact ho.tandem h hm
  · exact ho.tandem h hm
  · exact ho.tandem h hm
  · exact ho.tandem h hm
  · split
    · exact tandem_gluedWord halike hnext
    · exact .of_error rfl

end

/-- Whether a bracket is attached to a token of the text. -/
theorem opensCall_eq (halike : S.Alike c₁.here c₂.here) (hnext : S.Abreast c₁.next c₂.next) :
    (c₂.next.here.hasSymbol .leftParen && c₂.here.adjacent c₂.next.here) =
      (c₁.next.here.hasSymbol .leftParen && c₁.here.adjacent c₁.next.here) := by
  have hsymbol := Beside.test (sorts_symbol .leftParen) hnext.toBeside
  rcases hnext.toBeside.cases with ⟨halike', -⟩ | ⟨hhere₁, -⟩
  · rw [hsymbol, halike.adjacent halike']
  · rw [hsymbol, hhere₁, (sorts_symbol .leftParen).border S.borders₁, Bool.false_and, Bool.false_and]

theorem gives_atBareWord_beside (h : S.Beside c₁ c₂) :
    ∃ b, Gives atBareWord c₁ b c₁ ∧ Gives atBareWord c₂ b c₂ := by
  rcases h.cases with ⟨halike, hnext, -, hf₁, hf₂⟩ | ⟨hhere₁, -, hhere₂, -⟩
  · refine ⟨_, rfl, ?_⟩
    have hopens := opensCall_eq halike hnext
    rw [← hf₁, ← hf₂] at hopens
    rw [← hopens, ← halike.content]
    rfl
  · have hborder {c : Cursor} {more : List Token} (hc : c.here.Borders more) : Gives atBareWord c false c := by
      obtain ⟨b, hb, hword⟩ := gives_atBareWord c
      cases b with
      | false => exact hb
      | true => rcases hc with hc | ⟨hc, -⟩ <;> simp [hc] at hword
    exact ⟨false, hborder (hhere₁ ▸ S.borders₁), hborder (hhere₂ ▸ S.borders₂)⟩

structure Nested.Paired (S : Excerpt) (m : Nat) (nested₁ nested₂ : Nested) : Prop where
  expression : Parse.Paired S m nested₁.expression nested₂.expression
  unary : Parse.Paired S m nested₁.unary nested₂.unary

theorem Nested.Paired.phrasal {nested₁ nested₂ : Nested} (h : Nested.Paired S m nested₁ nested₂) : nested₁.Phrasal :=
  ⟨h.expression.phrasal, h.unary.phrasal⟩

section

variable {nested₁ nested₂ : Nested} (hn : Nested.Paired S m nested₁ nested₂)
include hn

theorem tandem_spacedFrom {n₁ n₂ : Nat} {done₁ done₂ : List Expr} (hdone : SameAll done₁ done₂) (h : S.Abreast c₁ c₂)
    (hm : c₁.ahead < m) (hn₁ : c₁.ahead < n₁) (hn₂ : c₂.ahead < n₂) :
    Tandem S k (spacedFrom nested₁ n₁ done₁) (spacedFrom nested₂ n₂ done₂) c₁ c₂ SameAll := by
  have hwords := paired_word hn.expression "argument"
  have := hwords.onward
  have := hn.unary.onward
  have (n : Nat) (done : List Expr) : Onward (spacedFrom nested₁ n done) := ⟨(passing_spacedFrom hn.phrasal n done).sound⟩
  induction n₁ generalizing n₂ c₁ c₂ done₁ done₂ with
  | zero => omega
  | succ n₁ ih =>
    obtain ⟨n₂, rfl⟩ : ∃ n, n₂ = n + 1 := ⟨n₂ - 1, by omega⟩
    have hargument {p q : Parse Expr} (hp : Parse.Paired S m p q) : Tandem S k
        (p >>= fun argument => spacedFrom nested₁ n₁ (argument :: done₁))
        (q >>= fun argument => spacedFrom nested₂ n₂ (argument :: done₂)) c₁ c₂ SameAll := by
      refine hp.bind h.toBeside hm fun _ _ c₁' c₂' harg h' hlt => ?_
      have hahead := h.ahead_eq
      have hahead' := h'.ahead_eq
      exact ih (.cons harg hdone) h' (by omega) (by omega) (by omega)
    unfold spacedFrom
    refine .at_ sorts_beginsArgument h.toBeside (fun _ => ?_) fun _ => .pure hdone.reverse h
    obtain ⟨b, hb₁, hb₂⟩ := gives_atBareWord_beside h.toBeside
    refine .step hb₁ hb₂ ?_
    split
    · exact hargument (paired_word hn.expression _)
    · exact hargument hn.unary

theorem tandem_spacedArguments (h : S.Abreast c₁ c₂) (hm : c₁.ahead < m) :
    Tandem S k (spacedArguments nested₁) (spacedArguments nested₂) c₁ c₂ SameAll :=
  .step (gives_rounds c₁) (gives_rounds c₂)
    (tandem_spacedFrom hn rfl h hm (Nat.lt_succ_self _) (Nat.lt_succ_self _))

theorem tandem_namedCall (hlexeme : c₂.here.lexeme = c₁.here.lexeme) (hnext : S.Abreast c₁.next c₂.next)
    (hm : c₁.next.ahead ≤ m) : Tandem S k (namedCall nested₁) (namedCall nested₂) c₁ c₂ Same := by
  have : Onward (parenArguments nested₁.expression) := ⟨(passing_parenArguments hn.phrasal.expression).sound⟩
  unfold namedCall
  refine .step (gives_advance c₁) (gives_advance c₂) ?_
  refine .bind hnext.ends (tandem_parenArguments hn.expression hnext.toBeside hm) fun _ _ c₁' c₂' hargs h' _ => ?_
  refine .step (gives_spanFrom _ c₁') (gives_spanFrom _ c₂') ?_
  rw [hlexeme]
  exact .pure (same_call _ _ _ hargs) h'

theorem tandem_callCommand (hnext : S.Abreast c₁.next c₂.next) (hm : c₁.next.ahead < m) :
    Tandem S k (callCommand nested₁) (callCommand nested₂) c₁ c₂ Same := by
  have : Onward (parenArguments nested₁.expression) := ⟨(passing_parenArguments hn.phrasal.expression).sound⟩
  have : Onward (spacedArguments nested₁) := ⟨(passing_spacedArguments hn.phrasal).sound⟩
  unfold callCommand
  refine .step (gives_advance c₁) (gives_advance c₂) (.step (gives_here c₁.next) (gives_here c₂.next) ?_)
  rw [Beside.test sorts_nameLike hnext.toBeside]
  split
  · rename_i hname
    refine .step (gives_advance c₁.next) (gives_advance c₂.next) ?_
    refine .step (gives_here c₁.next.next) (gives_here c₂.next.next) ?_
    rcases hnext.toBeside.cases with ⟨halike, h₂, hlt, -, -⟩ | ⟨hhere₁, -⟩
    · rw [opensCall_eq halike h₂, halike.lexeme]
      split
      · refine .bind h₂.ends (tandem_parenArguments hn.expression h₂.toBeside (by omega)) fun _ _ c₁' c₂' hargs h' _ => ?_
        exact .step (gives_spanFrom _ c₁') (gives_spanFrom _ c₂') (.pure (same_call _ _ _ hargs) h')
      · refine .bind h₂.ends (tandem_spacedArguments hn h₂ (by omega)) fun _ _ c₁' c₂' hargs h' _ => ?_
        exact .step (gives_spanFrom _ c₁') (gives_spanFrom _ c₂') (.pure (same_call _ _ _ hargs) h')
    · rw [hhere₁, sorts_nameLike.border S.borders₁] at hname
      contradiction
  · exact .of_error rfl

theorem tandem_primary (h : S.Beside c₁ c₂) (hm : c₁.ahead ≤ m) :
    Tandem S k (primary nested₁) (primary nested₂) c₁ c₂ Same := by
  refine .inner h (passing_primary hn.phrasal) fun halike hnext hlt hf₁ hf₂ => ?_
  have hopens := opensCall_eq halike hnext
  have hcall := tandem_namedCall (k := k) hn halike.lexeme hnext (by omega)
  unfold primary
  refine .step (gives_here c₁) (gives_here c₂) (.step (gives_get c₁) (gives_get c₂) ?_)
  dsimp only
  rw [hf₁, hf₂, hopens, halike.content, halike.lexeme]
  split
  · exact tandem_constant _ hnext
  · exact tandem_constant _ hnext
  · exact .step (gives_advance c₁) (gives_advance c₂) (.pure rfl hnext)
  · exact tandem_constant _ hnext
  · exact tandem_constant _ hnext
  · exact tandem_constant _ hnext
  · exact .step (gives_advance c₁) (gives_advance c₂) (.pure rfl hnext)
  · refine .step (gives_advance c₁) (gives_advance c₂) ?_
    have : Onward (consumeSymbol .rightParen "')'") := ⟨(passing_consumeSymbol (by simp) (by simp) _).unfilled.sound⟩
    refine hn.expression.bind hnext.toBeside (by omega) fun _ _ c₁' c₂' hinner h' _ => ?_
    exact .consume (sorts_symbol _) h'.toBeside fun _ h'' _ => .pure hinner h''
  · exact tandem_arrayLiteral hn.expression hnext (by omega)
  · exact tandem_objectLiteral hn.expression hnext (by omega)
  · exact tandem_callCommand hn hnext (by omega)
  · split
    · exact hcall
    · exact tandem_constant _ hnext
  · split
    · exact hcall
    · exact .of_error rfl
  · exact .of_error rfl

end

theorem tandem_memberName (h : S.Beside c₁ c₂) : Tandem S k memberName memberName c₁ c₂ Same := by
  refine .inner h passing_memberName fun halike hnext _ _ _ => ?_
  unfold memberName
  refine .step (gives_here c₁) (gives_here c₂) ?_
  rw [Beside.test sorts_nameLike h, halike.lexeme]
  split
  · exact tandem_constant _ hnext
  · exact .of_error rfl

theorem gives_accessor?_border (expression : Parse Expr) {c : Cursor} {more : List Token} (hc : c.here.Borders more) :
    Gives (accessor? expression) c none c := by
  unfold accessor?
  refine gives_bind (gives_attached c) ?_
  split
  · refine gives_bind (gives_accept_not ((sorts_symbol .dot).border hc)) ?_
    exact gives_bind (gives_accept_not ((sorts_symbol .leftBracket).border hc)) (gives_pure none c)
  · exact gives_pure none c

section

variable {o₁ o₂ : Parse Expr} (ho : Paired S m o₁ o₂)
include ho

/-- Behind an accessor fewer tokens are ahead, so `m` of them may be ahead in front of it. -/
theorem tandem_accessor? (h : S.Abreast c₁ c₂) (hm : c₁.ahead ≤ m) :
    Tandem S k (accessor? o₁) (accessor? o₂) c₁ c₂ SameOption := by
  have : Onward (consumeSymbol .rightBracket "']'") := ⟨(passing_consumeSymbol (by simp) (by simp) _).unfilled.sound⟩
  unfold accessor?
  refine .step (gives_attached c₁) (gives_attached c₂) ?_
  rcases h.toBeside.cases with ⟨halike, -⟩ | ⟨hhere₁, -, hhere₂, -⟩
  · rw [h.previous.adjacent halike]
    split
    · refine .accept (sorts_symbol _) h.toBeside (fun hnext _ => ?_) ?_
      · exact (tandem_memberName hnext.toBeside).map fun _ _ => Same.some
      · refine .accept (sorts_symbol _) h.toBeside (fun hnext hlt => ?_) (.pure rfl h)
        refine ho.bind hnext.toBeside (by omega) fun _ _ _ _ hkey h' _ => ?_
        exact .consume (sorts_symbol _) h'.toBeside fun _ h'' _ => .pure hkey.some h''
    · exact .pure rfl h
  · exact .of_run_eq (.pure (a := none) (b := none) rfl h) (gives_accessor?_border o₁ (hhere₁ ▸ S.borders₁))
      (gives_accessor?_border o₂ (hhere₂ ▸ S.borders₂))

omit ho in
/-- An accessor that is there takes at least one token. -/
theorem accessor?_ahead {expression : Parse Expr} (hexpression : Phrasal expression) {c c' : Cursor} (hc : c.Ends)
    {key : Expr} (hrun : (accessor? expression).run c = .ok (some key, c')) : c'.ahead < c.ahead := by
  have hnext {s : Symbol} (hhere : c.here.hasSymbol s = true) : c.next.Ends :=
    hc.passed (hc.next_tokens (isFinish_eq_false ((hasSymbol_iff _ _).1 hhere)))
  have hle := c.next_ahead_le
  unfold accessor? acceptSymbol at hrun
  rw [run_bind_gives (gives_attached c)] at hrun
  split at hrun
  · cases hdot : c.here.hasSymbol .dot with
    | true =>
      rw [run_bind_gives (gives_accept hdot)] at hrun
      have hlt := (passing_memberName.map some).ahead_lt (hnext hdot) hrun
      omega
    | false =>
      rw [run_bind_gives (gives_accept_not hdot)] at hrun
      cases hbracket : c.here.hasSymbol .leftBracket with
      | true =>
        have hkey : Passing (expression >>= fun key => do
            let _ ← consumeSymbol .rightBracket "']'"
            return some key) c.next (Filled Sealed) :=
          first hexpression fun _ _ => seq (passing_consumeSymbol (by simp) (by simp) _).unfilled fun _ _ => .pure _
        rw [if_neg Bool.false_ne_true, run_bind_gives (gives_accept hbracket)] at hrun
        have hlt := hkey.ahead_lt (hnext hbracket) hrun
        omega
      | false =>
        rw [if_neg Bool.false_ne_true, run_bind_gives (gives_accept_not hbracket)] at hrun
        cases hrun
  · cases hrun

theorem tandem_accessorsFrom {start₁ start₂ : Token} {n₁ n₂ : Nat} {base₁ base₂ : Expr} (hbase : Same base₁ base₂)
    (h : S.Abreast c₁ c₂) (hm : c₁.ahead ≤ m) (hn₁ : c₁.ahead < n₁) (hn₂ : c₂.ahead < n₂) :
    Tandem S k (accessorsFrom o₁ start₁ n₁ base₁) (accessorsFrom o₂ start₂ n₂ base₂) c₁ c₂ Same := by
  have : Onward (accessor? o₁) := ⟨(passing_accessor? ho.phrasal).sound⟩
  have (start : Token) (n : Nat) (base : Expr) : Onward (accessorsFrom o₁ start n base) :=
    ⟨(passing_accessorsFrom ho.phrasal start n base).sound⟩
  induction n₁ generalizing n₂ c₁ c₂ base₁ base₂ with
  | zero => omega
  | succ n₁ ih =>
    obtain ⟨n₂, rfl⟩ : ∃ n, n₂ = n + 1 := ⟨n₂ - 1, by omega⟩
    unfold accessorsFrom
    refine .through (j := k) h.ends (fun hc hrun hk => ?_) (tandem_accessor? ho h hm) ?_
    · refine Nat.le_trans hk ?_
      split at hrun
      · cases hrun
        exact Nat.le_refl _
      · exact Onward.ahead_le hc hrun
    · intro key₁ key₂ c₁' c₂' hkey h' hrun
      cases key₁ <;> cases key₂ <;> simp [SameOption] at hkey
      · exact .pure hbase h'
      · have hlt := accessor?_ahead ho.phrasal h.ends hrun
        have hahead := h.ahead_eq
        have hahead' := h'.ahead_eq
        refine .step (gives_spanFrom _ c₁') (gives_spanFrom _ c₂') ?_
        exact ih (same_property _ _ hbase hkey) h' (by omega) (by omega) (by omega)

end

section

variable {nested₁ nested₂ : Nested} (hn : Nested.Paired S m nested₁ nested₂)
include hn

theorem paired_accessed : Parse.Paired S (m + 1) (accessed nested₁) (accessed nested₂) := by
  refine ⟨passing_accessed hn.phrasal, fun {k c₁ c₂} h hm => ?_⟩
  have : Onward (primary nested₁) := ⟨(passing_primary hn.phrasal).unfilled.sound⟩
  have (start : Token) (n : Nat) (base : Expr) : Onward (accessorsFrom nested₁.expression start n base) :=
    ⟨(passing_accessorsFrom hn.expression.phrasal start n base).sound⟩
  unfold accessed
  refine .step (gives_here c₁) (gives_here c₂) ?_
  refine .bind h.ends (tandem_primary hn h (by omega)) fun _ _ c₁' c₂' hbase h' hle => ?_
  refine .step (gives_rounds c₁') (gives_rounds c₂') ?_
  exact tandem_accessorsFrom hn.expression hbase h' (by omega) (Nat.lt_succ_self _) (Nat.lt_succ_self _)

theorem paired_unaryLevel : Parse.Paired S (m + 1) (unaryLevel nested₁) (unaryLevel nested₂) := by
  refine ⟨passing_unaryLevel hn.phrasal, fun {k c₁ c₂} h hm => ?_⟩
  refine .inner h (passing_unaryLevel hn.phrasal) fun halike hnext hlt _ _ => ?_
  have hoperator : unaryOperator? c₂.here = unaryOperator? c₁.here := by
    unfold unaryOperator?
    rw [halike.content]
  unfold unaryLevel
  refine .step (gives_here c₁) (gives_here c₂) ?_
  rw [hoperator]
  split
  · refine .step (gives_advance c₁) (gives_advance c₂) ?_
    refine hn.unary.bind hnext.toBeside (by omega) fun _ _ c₁' c₂' hoperand h' _ => ?_
    exact .step (gives_spanFrom _ c₁') (gives_spanFrom _ c₂') (.pure (same_unary _ _ _ hoperand) h')
  · exact (paired_accessed hn).tandem h hm

theorem paired_orLevel : Parse.Paired S (m + 1) (orLevel nested₁) (orLevel nested₂) := by
  have hproduct : Operators productOperator? :=
    ⟨fun h => by unfold productOperator?; rw [h], isPlain_of_productOperator⟩
  have hsum : Operators sumOperator? := ⟨fun h => by unfold sumOperator?; rw [h], isPlain_of_sumOperator⟩
  have hcomparison : Operators comparisonOperator? :=
    ⟨fun h => by unfold comparisonOperator?; rw [h], isPlain_of_comparisonOperator⟩
  have hlogic (op : LogicOp) : Operators (logicOperator? op) :=
    ⟨fun h => by unfold logicOperator?; dsimp only; rw [(sorts_keyword _).content h], isPlain_of_logicOperator⟩
  have hsums := paired_chain (paired_chain (paired_unaryLevel hn) hproduct same_binary) hsum same_binary
  exact paired_chain (paired_chain (paired_chain hsums hcomparison same_binary) (hlogic .and) same_logic) (hlogic .or)
    same_logic

end

/-- There is no place of the text with so few tokens ahead. -/
theorem paired_of_le {p q : Parse Expr} (hp : Phrasal p) (hm : m ≤ S.more₁.length) : Paired S m p q := by
  refine ⟨hp, fun h hlt => ?_⟩
  have hwithin := h.within
  omega

/-- Expressions are read in tandem if they may be nested as deep as there are tokens ahead. -/
theorem paired_nested {n₁ n₂ : Nat} (h₁ : m ≤ n₁) (h₂ : m + S.more₂.length ≤ n₂ + S.more₁.length) :
    Nested.Paired S m (nested n₁) (nested n₂) := by
  have hphrasal := phrasal_nested n₁
  rcases Nat.lt_or_ge S.more₁.length m with hm | hm
  · induction n₁ generalizing n₂ m with
    | zero => omega
    | succ n₁ ih =>
      obtain ⟨m, rfl⟩ : ∃ j, m = j + 1 := ⟨m - 1, by omega⟩
      obtain ⟨n₂, rfl⟩ : ∃ j, n₂ = j + 1 := ⟨n₂ - 1, by omega⟩
      have hinner := phrasal_nested n₁
      have hnested : Nested.Paired S m (nested n₁) (nested n₂) := by
        rcases Nat.lt_or_ge S.more₁.length m with hm' | hm'
        · exact ih (by omega) (by omega) hinner hm'
        · exact ⟨paired_of_le hinner.expression hm', paired_of_le hinner.unary hm'⟩
      exact ⟨paired_orLevel hnested, paired_unaryLevel hnested⟩
  · exact ⟨paired_of_le hphrasal.expression hm, paired_of_le hphrasal.unary hm⟩

end Parse

end DeskScript
