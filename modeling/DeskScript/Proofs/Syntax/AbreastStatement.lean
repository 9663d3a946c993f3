import DeskScript.Proofs.Syntax.AbreastMessage
import DeskScript.Proofs.Syntax.Surfacing

set_option autoImplicit false

/-!
# Statements side by side

The parsers of statements run in tandem where the first source ends with the text.
-/

namespace DeskScript

open Token

namespace Parse

open Passing
open DeskScript.Expr (SameOption)

variable {α β γ δ : Type} {S : Excerpt} {m : Nat} {c₁ c₂ : Cursor} {p q : Parts} {R : γ → δ → Prop}

structure Parts.Paired (S : Excerpt) (m : Nat) (p q : Parts) : Prop where
  clausal : p.Clausal
  nested : Nested.Paired S (m + 1) p.nested q.nested
  back : Nested.Paired S.swap (m + 1 + S.more₂.length) q.nested p.nested
  body : ∀ inLoop {c₁ c₂}, S.Abreast c₁ c₂ → c₁.ahead < m → Tandem S 0 (p.body inLoop) (q.body inLoop) c₁ c₂ Block.Same
  statement : ∀ {c₁ c₂}, S.Abreast c₁ c₂ → c₁.ahead < m → Tandem S 0 p.statement q.statement c₁ c₂ Stmt.Same

section

variable (hp : Parts.Paired S m p q) (hS : S.Whole)
include hp hS

theorem Parts.Paired.expression_seq {f : Expr → Parse γ} {g : Expr → Parse δ} (h : S.Beside c₁ c₂) (hm : c₁.ahead ≤ m)
    (hf : ∀ a b c₁' c₂', Expr.Same a b → S.Abreast c₁' c₂' → c₁'.ahead < c₁.ahead →
      Tandem S 0 (f a) (g b) c₁' c₂' R) : Tandem S 0 (p.expression >>= f) (q.expression >>= g) c₁ c₂ R :=
  hp.nested.expression.seq hS h (Nat.lt_succ_of_le hm) hf

theorem Parts.Paired.word_seq {what : String} {f : Expr → Parse γ} {g : Expr → Parse δ} (h : S.Beside c₁ c₂)
    (hm : c₁.ahead ≤ m)
    (hf : ∀ a b c₁' c₂', Expr.Same a b → S.Abreast c₁' c₂' → c₁'.ahead < c₁.ahead →
      Tandem S 0 (f a) (g b) c₁' c₂' R) :
    Tandem S 0 (word p.expression what >>= f) (word q.expression what >>= g) c₁ c₂ R :=
  (paired_word hp.nested.expression what).seq hS h (Nat.lt_succ_of_le hm) hf

theorem Parts.Paired.body_seq (inLoop : Bool) {f : Block Stmt → Parse γ} {g : Block Stmt → Parse δ}
    (h : S.Abreast c₁ c₂) (hm : c₁.ahead < m)
    (hf : ∀ a b c₁' c₂', Block.Same a b → S.Abreast c₁' c₂' → c₁'.ahead ≤ c₁.ahead →
      Tandem S 0 (f a) (g b) c₁' c₂' R) : Tandem S 0 (p.body inLoop >>= f) (q.body inLoop >>= g) c₁ c₂ R := by
  have : Onward (p.body inLoop) := ⟨(hp.clausal.body inLoop).unfilled.sound⟩
  exact .seq hS h.ends (hp.body inLoop h hm) hf

theorem tandem_messageUntil (words : List Keyword) (h : S.Abreast c₁ c₂) (hm : c₁.ahead ≤ m) :
    Tandem S 0 (messageUntil p words) (messageUntil q words) c₁ c₂ Expr.Same := by
  have hahead := h.ahead_eq
  rw [hS.alone, List.length_nil] at hahead
  refine tandem_message (fun h => ?_) (fun t h => by simpa using (Bool.or_eq_false_iff.1 h).1) hS hp.nested.expression
    hp.back.expression h (by omega) (by omega)
  have hwords : words.any (Token.hasKeyword _) = words.any (Token.hasKeyword _) :=
    congrArg words.any (funext fun k => (sorts_keyword k).content h)
  rw [hwords]
  unfold Token.endsStatement
  rw [h]

theorem tandem_expressionStatement (h : S.Beside c₁ c₂) (hm : c₁.ahead ≤ m) :
    Tandem S 0 (expressionStatement p) (expressionStatement q) c₁ c₂ Stmt.Same := by
  unfold expressionStatement
  refine .step (gives_here c₁) (gives_here c₂) ?_
  refine hp.expression_seq hS h hm fun _ _ c₁' c₂' he h' _ => ?_
  exact .step (gives_spanFrom _ c₁') (gives_spanFrom _ c₂') (.pure (Stmt.same_evaluate _ _ he) h')

/-- Without `=` behind a target, both parsers go back and read the target again as an expression. -/
theorem tandem_variableStatement (h : S.Beside c₁ c₂) (hm : c₁.ahead ≤ m) :
    Tandem S 0 (variableStatement p) (variableStatement q) c₁ c₂ Stmt.Same := by
  have : Onward (target p.expression false) := ⟨(passing_target hp.nested.expression.phrasal false).unfilled.sound⟩
  unfold variableStatement
  refine .step (gives_here c₁) (gives_here c₂) (.step (gives_get c₁) (gives_get c₂) ?_)
  refine .seq hS h.ends (tandem_target hp.nested.expression false hS h (by omega)) ?_
  intro target₁ target₂ c₁' c₂' htarget h' hle
  refine .accept (sorts_symbol _) h'.toBeside (fun hnext hlt => ?_) ?_
  · refine hp.expression_seq hS hnext.toBeside (by omega) fun _ _ c₁' c₂' he h'' _ => ?_
    exact .step (gives_spanFrom _ c₁') (gives_spanFrom _ c₂') (.pure (Stmt.same_assign _ _ htarget he) h'')
  · exact .of_run_eq (tandem_expressionStatement hp hS h hm) rfl rfl

end

theorem tandem_conditionalLoop (hp : Parts.Paired S m p q) (hS : S.Whole) (start₁ start₂ : Token) (h : S.Abreast c₁ c₂)
    (hm : c₁.ahead < m) : Tandem S 0 (conditionalLoop p start₁) (conditionalLoop q start₂) c₁ c₂ Stmt.Same := by
  unfold conditionalLoop
  refine hp.expression_seq hS h.toBeside (by omega) fun _ _ c₁' c₂' he h' hlt => ?_
  refine hp.body_seq hS true h' (by omega) fun _ _ c₁' c₂' hbody h'' _ => ?_
  exact .step (gives_spanFrom _ c₁') (gives_spanFrom _ c₂') (.pure (Stmt.same_conditional _ _ hbody he) h'')

/-- What has to be consumed is not found at the end of the source. -/
theorem run_consume_finish {test : Token → Bool} (ht : Sorts test) (what : String) (f : Token → Parse γ) {c : Cursor}
    (hc : c.here.isFinish = true) : ∃ e, (consume test what >>= f).run c = .error e := by
  refine ⟨⟨c.complaint what, c.here.span⟩, ?_⟩
  unfold consume
  rw [bind_assoc, run_bind_gives (gives_at test c), ht.finish ((isFinish_iff _).1 hc), if_neg Bool.false_ne_true]
  rfl

section

variable (hp : Parts.Paired S m p q) (hS : S.Whole) (hnext : S.Abreast c₁.next c₂.next) (hm : c₁.next.ahead < m)
include hp hS hnext hm

theorem tandem_setStatement : Tandem S 0 (setStatement p) (setStatement q) c₁ c₂ Stmt.Same := by
  have : Onward (target p.expression true) := ⟨(passing_target hp.nested.expression.phrasal true).unfilled.sound⟩
  unfold setStatement
  refine .step (gives_advance c₁) (gives_advance c₂) ?_
  refine .seq hS hnext.ends (tandem_target hp.nested.expression true hS hnext.toBeside (by omega)) ?_
  intro target₁ target₂ c₁' c₂' htarget h' hle
  refine .consume (sorts_symbol _) h'.toBeside fun _ h'' hlt => ?_
  refine hp.expression_seq hS h''.toBeside (by omega) fun _ _ c₁' c₂' he h₃ _ => ?_
  exact .step (gives_spanFrom _ c₁') (gives_spanFrom _ c₂') (.pure (Stmt.same_assign _ _ htarget he) h₃)

theorem tandem_loopStatement : Tandem S 0 (loopStatement p) (loopStatement q) c₁ c₂ Stmt.Same := by
  unfold loopStatement
  refine .step (gives_advance c₁) (gives_advance c₂) ?_
  refine .accept (sorts_keyword _) hnext.toBeside (fun h' hlt => ?_) ?_
  · exact tandem_conditionalLoop hp hS _ _ h' (by omega)
  · refine hp.expression_seq hS hnext.toBeside (by omega) fun _ _ c₁' c₂' he h' hlt => ?_
    refine hp.body_seq hS true h' (by omega) fun _ _ c₁' c₂' hbody h'' _ => ?_
    exact .step (gives_spanFrom _ c₁') (gives_spanFrom _ c₂') (.pure (Stmt.same_counted _ _ hbody he) h'')

theorem tandem_foreachStatement : Tandem S 0 (foreachStatement p) (foreachStatement q) c₁ c₂ Stmt.Same := by
  unfold foreachStatement
  refine .step (gives_advance c₁) (gives_advance c₂) ?_
  refine .seq hS hnext.ends (tandem_variableName _ hnext.toBeside) ?_
  rintro item _ c₁' c₂' rfl h₁ hle₁
  have hrest (index : Option String) {d₁ d₂ : Cursor} (h : S.Abreast d₁ d₂) (hd : d₁.ahead < m) : Tandem S 0
      (do
        let _ ← consumeKeyword .inWord "'in'"
        let iterable ← p.expression
        let body ← p.body true
        return Stmt.foreach (← spanFrom c₁.here) item iterable body index)
      (do
        let _ ← consumeKeyword .inWord "'in'"
        let iterable ← q.expression
        let body ← q.body true
        return Stmt.foreach (← spanFrom c₂.here) item iterable body index) d₁ d₂ Stmt.Same := by
    refine .consume (sorts_keyword _) h.toBeside fun _ h₁ hlt₁ => ?_
    refine hp.expression_seq hS h₁.toBeside (by omega) fun _ _ _ _ he h₂ hlt₂ => ?_
    refine hp.body_seq hS true h₂ (by omega) fun _ _ _ _ hbody h₃ _ => ?_
    exact .step (gives_spanFrom _ _) (gives_spanFrom _ _) (.pure (Stmt.same_foreach _ _ _ _ he hbody) h₃)
  refine .accept (sorts_symbol _) h₁.toBeside (fun h₂ hlt₂ => ?_) ?_
  · refine .seq hS h₂.ends ((tandem_variableName _ h₂.toBeside).map fun _ _ h => congrArg some h) ?_
    rintro index _ d₁ d₂ rfl h₃ hle₃
    exact hrest _ h₃ (by omega)
  · exact .step (gives_pure _ _) (gives_pure _ _) (hrest _ h₁ (by omega))

omit hp hS hm in
theorem tandem_controlStatement (inLoop : Bool) {build : Span → Stmt} (hbuild : ∀ s₁ s₂, (build s₁).Same (build s₂)) :
    Tandem S 0 (controlStatement inLoop build) (controlStatement inLoop build) c₁ c₂ Stmt.Same := by
  unfold controlStatement
  refine .step (gives_advance c₁) (gives_advance c₂) ?_
  split
  · exact .pure (hbuild _ _) hnext
  · exact .of_error rfl

theorem tandem_returnStatement : Tandem S 0 (returnStatement p) (returnStatement q) c₁ c₂ Stmt.Same := by
  have : Onward p.expression := hp.nested.expression.onward
  unfold returnStatement
  refine .step (gives_advance c₁) (gives_advance c₂) (.step (gives_at _ _) (gives_at _ _) ?_)
  rw [endsStatement_beside hnext.toBeside]
  have hrest {o₁ o₂ : Option Expr} (ho : SameOption o₁ o₂) {d₁ d₂ : Cursor} (h : S.Abreast d₁ d₂) : Tandem S 0
      (do return Stmt.giveBack (← spanFrom c₁.here) o₁) (do return Stmt.giveBack (← spanFrom c₂.here) o₂) d₁ d₂
      Stmt.Same :=
    .step (gives_spanFrom _ _) (gives_spanFrom _ _) (.pure (Stmt.same_giveBack _ _ ho) h)
  split
  · exact .step (gives_pure _ _) (gives_pure _ _) (hrest rfl hnext)
  · refine .seq hS hnext.ends ((hp.nested.expression.tandem hnext.toBeside (by omega)).map fun _ _ => Expr.Same.some) ?_
    exact fun _ _ _ _ ho h' _ => hrest ho h'

theorem tandem_defineStatement : Tandem S 0 (defineStatement p) (defineStatement q) c₁ c₂ Stmt.Same := by
  unfold defineStatement
  refine .step (gives_advance c₁) (gives_advance c₂) ?_
  refine .seq hS hnext.ends (tandem_plainName _ hnext.toBeside) ?_
  rintro name _ _ _ rfl h₁ hle₁
  refine .seq hS h₁.ends (tandem_parameters hS h₁) ?_
  rintro params _ _ _ rfl h₂ hle₂
  refine hp.body_seq hS false h₂ (by omega) fun _ _ _ _ hbody h₃ _ => ?_
  exact .step (gives_spanFrom _ _) (gives_spanFrom _ _) (.pure (Stmt.same_define _ _ _ _ hbody) h₃)

theorem tandem_attemptStatement (inLoop : Bool) :
    Tandem S 0 (attemptStatement p inLoop) (attemptStatement q inLoop) c₁ c₂ Stmt.Same := by
  unfold attemptStatement
  refine .step (gives_advance c₁) (gives_advance c₂) ?_
  refine hp.body_seq hS inLoop hnext hm fun tryBlock₁ tryBlock₂ _ _ htry h₁ hle₁ => ?_
  refine .behind hS h₁.ends (tandem_skipNewlines h₁) (fun _ _ => run_consume_finish (sorts_keyword _) _ _) ?_
  intro _ _ d₁ d₂ _ h₂ hle₂
  refine .consume (sorts_keyword _) h₂.toBeside fun _ h₃ hlt₃ => .step (gives_here _) (gives_here _) ?_
  have hrest (errorVar : Option String) {d₁ d₂ : Cursor} (h : S.Abreast d₁ d₂) (hd : d₁.ahead < m) : Tandem S 0
      (do
        let catchBlock ← p.body inLoop
        return Stmt.attempt (← spanFrom c₁.here) tryBlock₁ catchBlock errorVar)
      (do
        let catchBlock ← q.body inLoop
        return Stmt.attempt (← spanFrom c₂.here) tryBlock₂ catchBlock errorVar) d₁ d₂ Stmt.Same := by
    refine hp.body_seq hS inLoop h hd fun _ _ _ _ hcatch h' _ => ?_
    exact .step (gives_spanFrom _ _) (gives_spanFrom _ _) (.pure (Stmt.same_attempt _ _ _ htry hcatch) h')
  rcases h₃.toBeside.cases with ⟨halike, h₄, hlt₄, -, -⟩ | ⟨hhere₁, -, hhere₂, -⟩
  · rw [halike.content]
    split
    · exact .step (gives_advance _) (gives_advance _) (.step (gives_pure _ _) (gives_pure _ _) (hrest _ h₄ (by omega)))
    · exact .step (gives_pure _ _) (gives_pure _ _) (hrest _ h₃ (by omega))
  · rw [hhere₁, hhere₂, hS.finish]
    rcases S.borders₂ with hborder | ⟨hborder, -⟩ <;> rw [hborder] <;>
      exact .step (gives_pure _ _) (gives_pure _ _) (hrest _ h₃ (by omega))

theorem tandem_onStatement : Tandem S 0 (onStatement p) (onStatement q) c₁ c₂ Stmt.Same := by
  unfold onStatement
  refine .step (gives_advance c₁) (gives_advance c₂) ?_
  refine hp.word_seq hS hnext.toBeside (by omega) fun _ _ _ _ hevent h₁ hlt₁ => ?_
  refine hp.body_seq hS false h₁ (by omega) fun _ _ _ _ hbody h₂ _ => ?_
  exact .step (gives_spanFrom _ _) (gives_spanFrom _ _) (.pure (Stmt.same_on _ _ hevent hbody) h₂)

end

section

variable (hp : Parts.Paired S m p q) (hS : S.Whole)
include hp hS

theorem tandem_keyValuesFrom {n₁ n₂ : Nat} {done₁ done₂ : List (String × Expr)} (hdone : Expr.SameEntries done₁ done₂)
    (h : S.Abreast c₁ c₂) (hm : c₁.ahead ≤ m) (hn₁ : c₁.ahead < n₁) (hn₂ : c₂.ahead < n₂) :
    Tandem S 0 (keyValuesFrom p n₁ done₁) (keyValuesFrom q n₂ done₂) c₁ c₂ Expr.SameEntries := by
  induction n₁ generalizing n₂ c₁ c₂ done₁ done₂ with
  | zero => omega
  | succ n₁ ih =>
    obtain ⟨n₂, rfl⟩ : ∃ n, n₂ = n + 1 := ⟨n₂ - 1, by omega⟩
    unfold keyValuesFrom
    refine .step (gives_here c₁) (gives_here c₂) ?_
    rw [endsStatement_beside h.toBeside, Beside.test sorts_nameLike h.toBeside]
    split
    · exact .pure hdone.reverse h
    · split
      · rename_i hname
        rcases h.toBeside.cases with ⟨halike, hnext, hlt, -, -⟩ | ⟨hhere₁, -⟩
        · rw [halike.lexeme]
          refine .step (gives_advance c₁) (gives_advance c₂) ?_
          refine .consume (sorts_symbol _) hnext.toBeside fun _ h₁ hlt₁ => ?_
          have hrest {value₁ value₂ : Expr} (hvalue : value₁.Same value₂) {d₁ d₂ : Cursor} (h' : S.Abreast d₁ d₂)
              (hd : d₁.ahead < c₁.ahead) : Tandem S 0
              (do
                let _ ← acceptSymbol .comma
                keyValuesFrom p n₁ ((c₁.here.lexeme, value₁) :: done₁))
              (do
                let _ ← acceptSymbol .comma
                keyValuesFrom q n₂ ((c₁.here.lexeme, value₂) :: done₂)) d₁ d₂ Expr.SameEntries := by
            have hahead := h.ahead_eq
            have hahead' := h'.ahead_eq
            refine .accept (sorts_symbol _) h'.toBeside (fun h'' hlt'' => ?_) ?_
            · have hahead'' := h''.ahead_eq
              exact ih (hdone.cons _ hvalue) h'' (by omega) (by omega) (by omega)
            · exact ih (hdone.cons _ hvalue) h' (by omega) (by omega) (by omega)
          obtain ⟨b, hb₁, hb₂⟩ := gives_atBareWord_beside h₁.toBeside
          refine .step hb₁ hb₂ ?_
          split
          · exact hp.word_seq hS h₁.toBeside (by omega) fun _ _ _ _ hvalue h' hlt' => hrest hvalue h' (by omega)
          · exact hp.expression_seq hS h₁.toBeside (by omega) fun _ _ _ _ hvalue h' hlt' => hrest hvalue h' (by omega)
        · rw [hhere₁, sorts_nameLike.border S.borders₁] at hname
          contradiction
      · exact .of_error rfl

theorem tandem_keyValues (h : S.Abreast c₁ c₂) (hm : c₁.ahead ≤ m) :
    Tandem S 0 (keyValues p) (keyValues q) c₁ c₂ Expr.Same := by
  have (n : Nat) (done : List (String × Expr)) : Onward (keyValuesFrom p n done) :=
    ⟨(passing_keyValuesFrom hp.clausal n done).sound⟩
  unfold keyValues
  refine .step (gives_here c₁) (gives_here c₂) (.step (gives_rounds c₁) (gives_rounds c₂) ?_)
  refine .seq hS h.ends (tandem_keyValuesFrom hp hS rfl h hm (Nat.lt_succ_self _) (Nat.lt_succ_self _)) ?_
  exact fun _ _ _ _ hentries h' _ =>
    .step (gives_spanFrom _ _) (gives_spanFrom _ _) (.pure (Expr.same_object _ _ hentries) h')

theorem tandem_emitStatement (hnext : S.Abreast c₁.next c₂.next) (hm : c₁.next.ahead < m) :
    Tandem S 0 (emitStatement p) (emitStatement q) c₁ c₂ Stmt.Same := by
  have : Onward p.expression := hp.nested.expression.onward
  have : Onward (keyValues p) := ⟨(passing_keyValues hp.clausal).sound⟩
  unfold emitStatement
  refine .step (gives_advance c₁) (gives_advance c₂) ?_
  refine hp.word_seq hS hnext.toBeside (by omega) fun event₁ event₂ d₁ d₂ hevent h₁ hlt₁ => ?_
  refine .step (gives_get d₁) (gives_get d₂) ?_
  have hrest {o₁ o₂ : Option Expr} (ho : SameOption o₁ o₂) {d₁ d₂ : Cursor} (h : S.Abreast d₁ d₂) : Tandem S 0
      (do return Stmt.emit (← spanFrom c₁.here) event₁ o₁) (do return Stmt.emit (← spanFrom c₂.here) event₂ o₂) d₁ d₂
      Stmt.Same :=
    .step (gives_spanFrom _ _) (gives_spanFrom _ _) (.pure (Stmt.same_emit _ _ hevent ho) h)
  have hpairs : (d₂.here.isNameLike && d₂.following.hasSymbol .assign) =
      (d₁.here.isNameLike && d₁.following.hasSymbol .assign) := by
    rcases h₁.toBeside.cases with ⟨-, h₂, -, hf₁, hf₂⟩ | ⟨hhere₁, -, hhere₂, -⟩
    · rw [hf₁, hf₂, Beside.test sorts_nameLike h₁.toBeside, Beside.test (sorts_symbol .assign) h₂.toBeside]
    · rw [hhere₁, hhere₂, sorts_nameLike.border S.borders₁, sorts_nameLike.border S.borders₂, Bool.false_and,
        Bool.false_and]
  rw [hpairs, endsStatement_beside h₁.toBeside]
  split
  · refine .seq hS h₁.ends ((tandem_keyValues hp hS h₁ (by omega)).map fun _ _ => Expr.Same.some) ?_
    exact fun _ _ _ _ ho h' _ => hrest ho h'
  · split
    · exact .step (gives_pure _ _) (gives_pure _ _) (hrest rfl h₁)
    · refine .seq hS h₁.ends ((hp.nested.expression.tandem h₁.toBeside (by omega)).map fun _ _ => Expr.Same.some) ?_
      exact fun _ _ _ _ ho h' _ => hrest ho h'

theorem tandem_wordCommand {what : String} {build₁ build₂ : Expr → Command Expr}
    (hbuild : ∀ e₁ e₂, e₁.Same e₂ → (build₁ e₁).Same (build₂ e₂)) (h : S.Beside c₁ c₂) (hm : c₁.ahead ≤ m) :
    Tandem S 0 (do return build₁ (← word p.expression what)) (do return build₂ (← word q.expression what)) c₁ c₂
      Command.Same :=
  hp.word_seq hS h hm fun _ _ _ _ he h' _ => .pure (hbuild _ _ he) h'

theorem tandem_command {k : Keyword} {operands₁ operands₂ : Parse (Command Expr)} (h₁ : command? p k = some operands₁)
    (h₂ : command? q k = some operands₂) (h : S.Abreast c₁ c₂) (hm : c₁.ahead ≤ m) :
    Tandem S 0 operands₁ operands₂ c₁ c₂ Command.Same := by
  have (words : List Keyword) : Onward (messageUntil p words) := ⟨(passing_messageUntil hp.clausal words).sound⟩
  have : Onward (keyValues p) := ⟨(passing_keyValues hp.clausal).sound⟩
  unfold command? at h₁ h₂
  split at h₁
  all_goals cases h₁
  all_goals cases h₂
  · exact .seq hS h.ends (tandem_messageUntil hp hS _ h hm) fun _ _ _ _ he h' _ => .pure (congrArg Command.alert he) h'
  · exact .seq hS h.ends (tandem_messageUntil hp hS _ h hm) fun _ _ _ _ he h' _ => .pure (congrArg Command.notify he) h'
  · refine .seq hS h.ends (tandem_messageUntil hp hS _ h hm) fun _ _ _ _ he h' _ => ?_
    refine .seq hS h'.ends (tandem_intoVariable h') ?_
    rintro v _ _ _ rfl h'' -
    exact .pure (congrArg (Command.confirm · v) he) h''
  · refine .seq hS h.ends (tandem_messageUntil hp hS _ h hm) fun message₁ message₂ _ _ he h' hle => ?_
    have hrest {o₁ o₂ : Option Expr} (ho : SameOption o₁ o₂) {d₁ d₂ : Cursor} (h : S.Abreast d₁ d₂) : Tandem S 0
        (do return Command.prompt message₁ o₁ (← intoVariable)) (do return Command.prompt message₂ o₂ (← intoVariable))
        d₁ d₂ Command.Same := by
      refine .seq hS h.ends (tandem_intoVariable h) ?_
      rintro v _ _ _ rfl h'' -
      exact .pure (congrArg₂ (Command.prompt · · v) he ho) h''
    refine .accept (sorts_keyword _) h'.toBeside (fun h'' hlt => ?_) ?_
    · refine .seq hS h''.ends ((tandem_messageUntil hp hS _ h'' (by omega)).map fun _ _ => Expr.Same.some) ?_
      exact fun _ _ _ _ ho h' _ => hrest ho h'
    · exact .step (gives_pure _ _) (gives_pure _ _) (hrest rfl h')
  · refine .seq hS h.ends (tandem_messageUntil hp hS _ h hm) fun _ _ _ _ hcontent h' hle => ?_
    refine .consume (sorts_keyword _) h'.toBeside fun _ h'' hlt => ?_
    exact tandem_wordCommand hp hS (fun _ _ he => congrArg₂ Command.write hcontent he) h''.toBeside (by omega)
  · refine hp.word_seq hS h.toBeside hm fun _ _ _ _ he h' _ => ?_
    refine .seq hS h'.ends (tandem_intoVariable h') ?_
    rintro v _ _ _ rfl h'' -
    exact .pure (congrArg (Command.read · v) he) h''
  · exact tandem_wordCommand hp hS (fun _ _ he => congrArg Command.mkdir he) h.toBeside hm
  · exact tandem_wordCommand hp hS (fun _ _ he => congrArg Command.delete he) h.toBeside hm
  · refine hp.word_seq hS h.toBeside hm fun _ _ _ _ he h' _ => ?_
    refine .accept (sorts_keyword _) h'.toBeside (fun h'' hlt => ?_) ?_
    · refine .seq hS h''.ends ((tandem_keyValues hp hS h'' (by omega)).map fun _ _ => Expr.Same.some) ?_
      exact fun _ _ _ _ ho h₃ _ => .pure (congrArg₂ Command.launch he ho) h₃
    · exact .step (gives_pure _ _) (gives_pure _ _) (.pure (congrArg (Command.launch · none) he) h')
  · refine .step (gives_at _ _) (gives_at _ _) ?_
    rw [endsStatement_beside h.toBeside]
    split
    · exact .pure rfl h
    · exact tandem_wordCommand hp hS (fun _ _ he => congrArg Command.close he.some) h.toBeside hm
  · refine .step (gives_at _ _) (gives_at _ _) ?_
    rw [endsStatement_beside h.toBeside]
    split
    · exact .pure rfl h
    · exact hp.expression_seq hS h.toBeside hm fun _ _ _ _ he h' _ => .pure (congrArg Command.wait he.some) h'
  · exact tandem_wordCommand hp hS (fun _ _ he => congrArg (Command.window .focus) he) h.toBeside hm
  · exact tandem_wordCommand hp hS (fun _ _ he => congrArg (Command.window .minimize) he) h.toBeside hm
  · exact tandem_wordCommand hp hS (fun _ _ he => congrArg (Command.window .maximize) he) h.toBeside hm
  · exact tandem_wordCommand hp hS (fun _ _ he => congrArg Command.play he) h.toBeside hm

end

theorem tandem_otherCommand (hp : Parts.Paired S m p q) (hS : S.Whole) (halike : S.Alike c₁.here c₂.here)
    (hnext : S.Abreast c₁.next c₂.next) (hm : c₁.next.ahead ≤ m) :
    Tandem S 0 (otherCommand p) (otherCommand q) c₁ c₂ Stmt.Same := by
  have : Onward (spacedArguments p.nested) := ⟨(passing_spacedArguments hp.clausal.nested).sound⟩
  unfold otherCommand
  refine .step (gives_advance c₁) (gives_advance c₂) (.step (gives_rounds _) (gives_rounds _) ?_)
  rw [halike.lexeme]
  refine .seq hS hnext.ends (tandem_wordPartsFrom _ hnext (Nat.lt_succ_self _) (Nat.lt_succ_self _)) ?_
  rintro name _ d₁ d₂ rfl h' hle
  refine .seq hS h'.ends (tandem_spacedArguments hp.nested h' (by omega)) fun _ _ _ _ hargs h'' _ => ?_
  refine .step (gives_spanFrom _ _) (gives_spanFrom _ _) (.pure (Stmt.same_command _ _ ?_) h'')
  exact congrArg (Command.other name) (Expr.same_array _ _ hargs)

theorem skipWhile_run {test : Token → Bool} (hfinish : ∀ t, t.isFinish = true → test t = false) {c : Cursor} {n : Nat}
    (hc : c.Ends) (hn : c.ahead < n) :
    ∃ ws d, (skipWhile test n).run c = .ok ((), d) ∧ c.tokens = ws ++ d.tokens ∧ (∀ w ∈ ws, test w = true) ∧
      test d.here = false := by
  induction n generalizing c with
  | zero => omega
  | succ n ih =>
    unfold skipWhile
    cases hhere : test c.here with
    | false => exact ⟨[], c, run_bind_gives (gives_accept_not hhere), rfl, by simp, hhere⟩
    | true =>
      have hinner : c.here.isFinish = false := by
        by_contra hend
        rw [hfinish _ (by simpa using hend)] at hhere
        contradiction
      have htokens := hc.next_tokens hinner
      have hahead := ahead_of_tokens htokens
      rw [List.length_singleton] at hahead
      obtain ⟨ws, d, hrun, hd, hws, hstop⟩ := ih (hc.passed htokens) (by omega)
      refine ⟨c.here :: ws, d, (run_bind_gives (gives_accept hhere)).trans hrun, ?_, ?_, hstop⟩
      · rw [htokens, hd]
        rfl
      · intro w hw
        rcases List.mem_cons.1 hw with rfl | hw
        · exact hhere
        · exact hws w hw

theorem not_newline_of_isFinish (t : Token) (h : t.isFinish = true) : (t.content matches .newline) = false := by
  rw [(isFinish_iff t).1 h]

theorem skipNewlines_run {c : Cursor} (hc : c.Ends) :
    ∃ ws d, Gives skipNewlines c () d ∧ c.tokens = ws ++ d.tokens ∧ (∀ w ∈ ws, w.content = .newline) ∧
      d.here.content ≠ .newline := by
  obtain ⟨ws, d, hrun, hd, hws, hstop⟩ := skipWhile_run not_newline_of_isFinish hc (Nat.lt_succ_self _)
  refine ⟨ws, d, (run_bind_gives (gives_rounds c)).trans hrun, hd, fun w hw => ?_, fun h => ?_⟩
  · have hw := hws w hw
    split at hw <;> simp_all
  · simp [h] at hstop

/-- If only line ends are left of the text, no `else` follows them in the second source either. -/
theorem not_else (hS : S.Whole) (h : S.Beside c₁ c₂) {d₁ d₂ : Cursor} {ws₁ ws₂ : List Token}
    (h₁ : c₁.tokens = ws₁ ++ d₁.tokens) (hws₁ : ∀ w ∈ ws₁, w.content = .newline) (hend : d₁.ahead = 0)
    (h₂ : c₂.tokens = ws₂ ++ d₂.tokens) (hws₂ : ∀ w ∈ ws₂, w.content = .newline)
    (hstop : d₂.here.content ≠ .newline) : d₂.here.hasKeyword .elseWord = false := by
  obtain ⟨ts₁, ts₂, ht₁, ht₂, halike⟩ := h.ahead
  have hts₁ : ts₁ = ws₁ := by
    have hrest : d₁.rest = [] := List.eq_nil_of_length_eq_zero hend
    rw [ht₁, hS.alone, Cursor.tokens, hrest] at h₁
    exact (List.append_inj' h₁ rfl).1
  have hts₂ : ∀ t ∈ ts₂, t.content = .newline := by
    intro t ht
    obtain ⟨i, hi, rfl⟩ := List.getElem_of_mem ht
    have hi₁ : i < ts₁.length := by rw [halike.length_eq]; exact hi
    have hsame := (List.forall₂_iff_get.1 halike).2 i hi₁ hi
    exact hsame.content.trans (hws₁ _ (hts₁ ▸ List.getElem_mem hi₁))
  have hborder : S.border₂.content = .newline ∨ S.border₂.content = .finish ∧ S.more₂ = [] := S.borders₂
  have hsplit : ws₂ ++ d₂.tokens = (ts₂ ++ [S.border₂]) ++ S.more₂ := by rw [← h₂, ht₂, List.append_cons]
  rcases List.append_eq_append_iff.1 hsplit with ⟨as, has, hmore⟩ | ⟨as, has, hmore⟩
  · -- the second parser is still within the text or at its border
    cases as with
    | nil =>
      exact hS.parted [] d₂.here d₂.rest (by simpa [Cursor.tokens] using hmore.symm) (by simp)
    | cons a as =>
      obtain ⟨rfl, -⟩ := List.cons.inj hmore
      have hmem : d₂.here ∈ ts₂ ++ [S.border₂] := by rw [has]; simp
      rcases List.mem_append.1 hmem with hmem | hmem
      · exact absurd (hts₂ _ hmem) hstop
      · obtain hhere := List.mem_singleton.1 hmem
        rw [hhere] at hstop ⊢
        rcases hborder with hborder | ⟨hborder, -⟩
        · exact absurd hborder hstop
        · exact (sorts_keyword _).finish hborder
  · exact hS.parted as d₂.here d₂.rest hmore fun w hw => hws₂ w (by rw [has]; simp [hw])

end Parse

end DeskScript
