import DeskScript.Proofs.Syntax.AbreastStatement

set_option autoImplicit false

/-!
# Blocks side by side

Statements with bodies of their own, statements one after the other, and from both, by induction on the depth of
nesting, every statement.
-/

namespace DeskScript

open Token

namespace Parse

open Passing

variable {γ δ : Type} {S : Excerpt} {m : Nat} {c₁ c₂ : Cursor} {p q : Parts} {R : γ → δ → Prop}

/-- Looking for `else` behind line ends. If these are all that is left of the text, the second parser looks into what
follows, but finds no `else` there. -/
theorem tandem_lookElse (hS : S.Whole) {f : Bool → Parse γ} {g : Bool → Parse δ} (h : S.Abreast c₁ c₂)
    (hsome : ∀ d₁ d₂, S.Abreast d₁ d₂ → d₁.ahead < c₁.ahead → Tandem S 0 (f true) (g true) d₁ d₂ R)
    (hnone : ∀ d₁ d₂, Tandem S 0 (f false) (g false) d₁ d₂ R) :
    Tandem S 0 (skipNewlines >>= fun _ => acceptKeyword .elseWord >>= f)
      (skipNewlines >>= fun _ => acceptKeyword .elseWord >>= g) c₁ c₂ R := by
  obtain ⟨ws₁, d₁, hrun₁, htokens₁, hws₁, -⟩ := skipNewlines_run h.toBeside.ends
  obtain ⟨ws₂, d₂, hrun₂, htokens₂, hws₂, hstop₂⟩ := skipNewlines_run h.swap.toBeside.ends
  refine .step hrun₁ hrun₂ ?_
  have hle := ahead_of_tokens htokens₁
  by_cases hmore : 1 ≤ d₁.ahead
  · obtain ⟨_, d, hrun, -, h'⟩ := (tandem_skipNewlines h).follows hrun₁ (by rw [hS.alone, List.length_nil]; omega)
    obtain rfl : d = d₂ := by
      rw [hrun₂] at hrun
      cases hrun
      rfl
    exact .accept (sorts_keyword _) h'.toBeside (fun h'' hlt => hsome _ _ h'' (by omega)) (hnone _ _)
  · have helse₂ := not_else hS h.toBeside htokens₁ hws₁ (by omega) htokens₂ hws₂ hstop₂
    have hend := (h.toBeside.ends.passed htokens₁).finish (by omega)
    have helse₁ := (sorts_keyword .elseWord).finish ((isFinish_iff _).1 hend)
    exact .step (gives_accept_not helse₁) (gives_accept_not helse₂) (hnone _ _)

/-- Which keywords begin a command does not depend on the parsers of its parts. -/
theorem command?_isSome (p q : Parts) (k : Keyword) : (command? p k).isSome = (command? q k).isSome := by
  unfold command?
  split <;> simp only [Option.isSome]

section

variable (hp : Parts.Paired S m p q) (hS : S.Whole)
include hp hS

theorem tandem_branchStatement (inLoop : Bool) (hnext : S.Abreast c₁.next c₂.next) (hm : c₁.next.ahead < m) :
    Tandem S 0 (branchStatement p inLoop) (branchStatement q inLoop) c₁ c₂ Stmt.Same := by
  have : Onward p.statement := ⟨hp.clausal.statement.unfilled.sound⟩
  have : Onward (p.body inLoop) := ⟨(hp.clausal.body inLoop).unfilled.sound⟩
  have : Onward (acceptKeyword .thenWord) := ⟨(passing_acceptKeyword _).sound⟩
  unfold branchStatement
  refine .step (gives_advance c₁) (gives_advance c₂) ?_
  refine hp.expression_seq hS hnext.toBeside (by omega) fun condition₁ condition₂ _ _ hcondition h₁ hlt₁ => ?_
  refine .seq hS h₁.ends (tandem_accept (sorts_keyword _) h₁) fun _ _ _ _ _ h₂ hle₂ => ?_
  refine hp.body_seq hS inLoop h₂ (by omega) fun thenBlock₁ thenBlock₂ d₁ d₂ hthen h₃ hle₃ => ?_
  refine .step (gives_get d₁) (gives_get d₂) ?_
  have hfinish {o₁ o₂ : Option (Block Stmt)} (ho : Block.SameOption o₁ o₂) {e₁ e₂ : Cursor} (h : S.Abreast e₁ e₂) :
      Tandem S 0 (do return Stmt.branch (← spanFrom c₁.here) condition₁ thenBlock₁ o₁)
        (do return Stmt.branch (← spanFrom c₂.here) condition₂ thenBlock₂ o₂) e₁ e₂ Stmt.Same :=
    .step (gives_spanFrom _ _) (gives_spanFrom _ _) (.pure (Stmt.same_branch _ _ hcondition hthen ho) h)
  refine tandem_lookElse hS h₃ (fun e₁ e₂ h₄ hlt₄ => ?_) fun _ _ => .of_run_eq (hfinish rfl h₃) rfl rfl
  refine .at_ (sorts_keyword _) h₄.toBeside (fun _ => ?_) fun _ => ?_
  · refine .seq hS h₄.ends (hp.statement h₄ (by omega)) fun inner₁ inner₂ _ _ hinner h₅ _ => ?_
    refine .step (gives_pure _ _) (gives_pure _ _) (hfinish ?_ h₅)
    exact congrArg (fun s => some [s]) hinner
  · refine .seq hS h₄.ends ((hp.body inLoop h₄ (by omega)).map fun _ _ => Block.Same.some) ?_
    exact fun _ _ _ _ ho h₅ _ => hfinish ho h₅

/-- A statement that begins with a keyword of no statement of its own. -/
theorem tandem_commandStatement {other₁ other₂ : Parse Stmt} (hother : Tandem S 0 other₁ other₂ c₁ c₂ Stmt.Same)
    (hnext : S.Abreast c₁.next c₂.next) (hm : c₁.next.ahead ≤ m) (k : Keyword) :
    Tandem S 0
      (match command? p k with
        | some operands => do
          let _ ← advance
          let request ← operands
          return Stmt.command (← spanFrom c₁.here) request
        | none => other₁)
      (match command? q k with
        | some operands => do
          let _ ← advance
          let request ← operands
          return Stmt.command (← spanFrom c₂.here) request
        | none => other₂) c₁ c₂ Stmt.Same := by
  have hsome := command?_isSome p q k
  cases hp₁ : command? p k with
  | none =>
    have hnone : command? q k = none := by simpa [hp₁] using hsome.symm
    rw [hnone]
    exact hother
  | some operands₁ =>
    rw [hp₁] at hsome
    obtain ⟨operands₂, hq₁⟩ := Option.isSome_iff_exists.1 hsome.symm
    have : Onward operands₁ := ⟨(passing_command hp.clausal hp₁).sound⟩
    rw [hq₁]
    refine .step (gives_advance c₁) (gives_advance c₂) ?_
    refine .seq hS hnext.ends (tandem_command hp hS hp₁ hq₁ hnext hm) fun _ _ _ _ hrequest h' _ => ?_
    exact .step (gives_spanFrom _ _) (gives_spanFrom _ _) (.pure (Stmt.same_command _ _ hrequest) h')

theorem tandem_statementOf (inLoop : Bool) (h : S.Beside c₁ c₂) (hm : c₁.ahead ≤ m) :
    Tandem S 0 (statementOf p inLoop) (statementOf q inLoop) c₁ c₂ Stmt.Same := by
  refine .inner h (passing_statementOf hp.clausal inLoop) fun halike hnext hlt _ _ => ?_
  have hexpression := tandem_expressionStatement hp hS h hm
  have hargument : Tandem S 0 (if beginsArgument c₁.here then expressionStatement p else expected "statement")
      (if beginsArgument c₁.here then expressionStatement q else expected "statement") c₁ c₂ Stmt.Same := by
    split
    · exact hexpression
    · exact .of_error rfl
  unfold statementOf
  refine .step (gives_here c₁) (gives_here c₂) ?_
  rw [halike.content, Beside.test sorts_beginsArgument h]
  split
  · exact tandem_variableStatement hp hS h hm
  · exact tandem_setStatement hp hS hnext (by omega)
  · have (words : List Keyword) : Onward (messageUntil p words) := ⟨(passing_messageUntil hp.clausal words).sound⟩
    refine .step (gives_advance c₁) (gives_advance c₂) (.step (gives_spanFrom _ _) (gives_spanFrom _ _) ?_)
    refine .seq hS hnext.ends (tandem_messageUntil hp hS [] hnext (by omega)) fun _ _ _ _ he h' _ => ?_
    exact .pure (Stmt.same_print _ _ he) h'
  · exact tandem_branchStatement hp hS inLoop hnext (by omega)
  · exact tandem_loopStatement hp hS hnext (by omega)
  · refine .step (gives_advance c₁) (gives_advance c₂) ?_
    exact tandem_conditionalLoop hp hS _ _ hnext (by omega)
  · exact tandem_foreachStatement hp hS hnext (by omega)
  · exact tandem_controlStatement hnext inLoop fun _ _ => rfl
  · exact tandem_controlStatement hnext inLoop fun _ _ => rfl
  · exact tandem_returnStatement hp hS hnext (by omega)
  · exact tandem_defineStatement hp hS hnext (by omega)
  · exact tandem_attemptStatement hp hS hnext (by omega) inLoop
  · exact tandem_onStatement hp hS hnext (by omega)
  · exact tandem_emitStatement hp hS hnext (by omega)
  · exact hexpression
  · exact tandem_commandStatement hp hS hargument hnext (by omega) _
  · obtain ⟨b, hb₁, hb₂⟩ := gives_atBareWord_beside h
    refine .step hb₁ hb₂ ?_
    split
    · exact tandem_otherCommand hp hS halike hnext (by omega)
    · exact hexpression
  · exact hargument

end

theorem tandem_endStatement_inner {k : Nat} (halike : S.Alike c₁.here c₂.here) (hnext : S.Abreast c₁.next c₂.next)
    (h : S.Abreast c₁ c₂) : Tandem S k endStatement endStatement c₁ c₂ fun _ _ => True := by
  unfold endStatement
  refine .step (gives_get c₁) (gives_get c₂) ?_
  rw [halike.content, (sorts_symbol .rightBrace).content h.previous.content]
  have hadvance : Tandem S k (do let _ ← advance) (do let _ ← advance) c₁ c₂ fun _ _ => True :=
    .step (gives_advance c₁) (gives_advance c₂) (.pure trivial hnext)
  split
  · exact hadvance
  · exact hadvance
  · exact .pure trivial h
  · exact .pure trivial h
  · split
    · exact .pure trivial h
    · exact .of_error rfl

theorem tandem_endStatement (h : S.Abreast c₁ c₂) :
    Tandem S 1 endStatement endStatement c₁ c₂ fun _ _ => True := by
  rcases h.toBeside.cases with ⟨halike, hnext, -, -, -⟩ | ⟨-, hrest, -, -⟩
  · exact tandem_endStatement_inner halike hnext h
  · have : Onward endStatement := ⟨passing_endStatement.sound⟩
    refine ⟨fun hrun hk => ?_⟩
    have hle := Onward.ahead_le h.toBeside.ends hrun
    simp only [Cursor.ahead, hrest] at hle hk
    omega

theorem isTerminator_congr {t u : Token} (h : u.content = t.content) : u.isTerminator = t.isTerminator := by
  unfold isTerminator
  rw [h, (sorts_symbol .semicolon).content h]

theorem tandem_skipTerminators (h : S.Abreast c₁ c₂) :
    Tandem S 1 skipTerminators skipTerminators c₁ c₂ fun _ _ => True :=
  tandem_skipWhile isTerminator_congr
    (fun n => ⟨passing_skipWhile (fun _ ht => ⟨(safe_terminator ht).1, (safe_terminator ht).2.sound⟩) n⟩) h

theorem gives_skipTerminators {c : Cursor} (hc : c.here.isFinish = true) : Gives skipTerminators c () c := by
  have hfinish := (isFinish_iff _).1 hc
  refine (run_bind_gives (gives_rounds c)).trans (run_bind_gives (gives_accept_not ?_))
  simp [hfinish, Token.hasSymbol]

section

variable {statement₁ statement₂ : Parse Stmt} {stops : Parse Bool}
  (hfail : ∀ c, c.here.isFinish = true → ∃ e, stops.run c = .error e)
include hfail

theorem statementsFrom_fails {n : Nat} (hn : 0 < n) (done : List Stmt) {c : Cursor} (hc : c.here.isFinish = true) :
    ∃ e, (statementsFrom statement₁ endStatement stops n done).run c = .error e := by
  obtain ⟨n, rfl⟩ : ∃ m, n = m + 1 := ⟨n - 1, by omega⟩
  obtain ⟨e, he⟩ := hfail c hc
  refine ⟨e, ?_⟩
  unfold statementsFrom
  rw [run_bind_gives (gives_skipTerminators hc), StateT.run_bind, he]
  rfl

theorem tandem_statementsFrom (hS : S.Whole) (hclausal : Clausal statement₁)
    (hstatement : ∀ {d₁ d₂}, S.Abreast d₁ d₂ → d₁.ahead < m → Tandem S 0 statement₁ statement₂ d₁ d₂ Stmt.Same)
    [Onward stops] (hstops : ∀ {d₁ d₂}, S.Abreast d₁ d₂ → Tandem S 0 stops stops d₁ d₂ (· = ·)) {n₁ n₂ : Nat}
    {done₁ done₂ : List Stmt} (hdone : Stmt.SameAll done₁ done₂) (h : S.Abreast c₁ c₂) (hm : c₁.ahead < m)
    (hn₁ : c₁.ahead < n₁) (hn₂ : c₂.ahead < n₂) :
    Tandem S 0 (statementsFrom statement₁ endStatement stops n₁ done₁)
      (statementsFrom statement₂ endStatement stops n₂ done₂) c₁ c₂ Stmt.SameAll := by
  have : Onward skipTerminators := ⟨passing_skipTerminators.sound⟩
  have : Onward endStatement := ⟨passing_endStatement.sound⟩
  have : Onward statement₁ := ⟨hclausal.unfilled.sound⟩
  -- Each statement takes a token, so neither loop runs out of fuel.
  induction n₁ generalizing n₂ c₁ c₂ done₁ done₂ with
  | zero => omega
  | succ n₁ ih =>
    obtain ⟨n₂, rfl⟩ : ∃ n, n₂ = n + 1 := ⟨n₂ - 1, by omega⟩
    have hahead := h.ahead_eq
    unfold statementsFrom
    refine .behind hS h.ends (tandem_skipTerminators h) (fun _ c hc => ?_) fun _ _ d₁ d₂ _ h₁ hle₁ => ?_
    · obtain ⟨e, he⟩ := hfail c hc
      exact ⟨e, by rw [StateT.run_bind, he]; rfl⟩
    · refine .seq hS h₁.ends (hstops h₁) ?_
      rintro done _ d₁ d₂ rfl h₂ hle₂
      split
      · exact .pure hdone.reverse h₂
      · refine .through (j := 0) h₂.ends (fun _ _ _ => by simp [hS.alone]) (hstatement h₂ (by omega)) ?_
        intro s₁ s₂ d₁ d₂ hs h₃ hrun
        have hlt := hclausal.ahead_lt h₂.ends hrun
        refine .behind hS h₃.ends (tandem_endStatement h₃)
          (fun _ _ hc => statementsFrom_fails hfail (by omega) _ hc) fun _ _ d₁ d₂ _ h₄ hle₄ => ?_
        have hahead' := h₄.ahead_eq
        exact ih (hdone.cons hs) h₄ (by omega) (by omega) (by omega)

end

theorem closes_fails (c : Cursor) (hc : c.here.isFinish = true) : ∃ e, closes.run c = .error e := by
  refine ⟨⟨c.complaint "'\x7d'", c.here.span⟩, ?_⟩
  unfold closes
  rw [run_bind_gives (gives_at _ c), (sorts_symbol _).finish ((isFinish_iff _).1 hc), if_neg Bool.false_ne_true,
    run_bind_gives (gives_at _ c), hc, if_pos rfl]
  rfl

instance : Onward closes := ⟨passing_closes.sound⟩

theorem tandem_closes (hS : S.Whole) (h : S.Abreast c₁ c₂) : Tandem S 0 closes closes c₁ c₂ (· = ·) := by
  unfold closes
  refine .at_ (sorts_symbol _) h.toBeside (fun _ => .pure rfl h) fun _ => ?_
  rcases h.toBeside.cases with ⟨halike, -⟩ | ⟨hhere₁, -⟩
  · have hinner₂ : c₂.here.isFinish = false := by rw [isFinish, halike.content]; exact halike.inner
    refine .step (gives_at _ c₁) (gives_at _ c₂) ?_
    rw [halike.inner, hinner₂]
    exact .pure rfl h
  · have hend : c₁.here.isFinish = true := by rw [hhere₁, isFinish_iff, hS.finish]
    refine .of_error (e := ⟨c₁.complaint "'\x7d'", c₁.here.span⟩) ?_
    rw [if_neg Bool.false_ne_true, run_bind_gives (gives_at _ c₁), hend, if_pos rfl]
    rfl

theorem tandem_block (hS : S.Whole) {statement₁ statement₂ : Parse Stmt} (hclausal : Clausal statement₁)
    (hstatement : ∀ {d₁ d₂}, S.Abreast d₁ d₂ → d₁.ahead < m → Tandem S 0 statement₁ statement₂ d₁ d₂ Stmt.Same)
    (h : S.Abreast c₁ c₂) (hm : c₁.ahead < m) :
    Tandem S 0 (block statement₁) (block statement₂) c₁ c₂ Block.Same := by
  rw [block_eq, block_eq]
  refine .behind hS h.ends (tandem_skipNewlines h) (fun _ _ => run_consume_finish (sorts_symbol _) _ _) ?_
  intro _ _ d₁ d₂ _ h₁ hle₁
  refine .consume (sorts_symbol _) h₁.toBeside fun _ h₂ hlt₂ => .step (gives_rounds _) (gives_rounds _) ?_
  have (n : Nat) : Onward (statementsFrom statement₁ endStatement closes n []) :=
    ⟨(passing_statementsFrom hclausal passing_endStatement passing_closes n []).sound⟩
  refine .seq hS h₂.ends (tandem_statementsFrom closes_fails hS hclausal hstatement (tandem_closes hS) rfl h₂ (by omega)
    (Nat.lt_succ_self _) (Nat.lt_succ_self _)) fun _ _ _ _ hss h₃ _ => ?_
  refine .consume (sorts_symbol _) h₃.toBeside fun _ h₄ _ => ?_
  exact .step (gives_spanFrom _ _) (gives_spanFrom _ _) (.pure hss h₄)

/-- Statements run in tandem if both parsers may nest them as deep as the tokens ahead allow. -/
theorem tandem_statement (hS : S.Whole) {N₁ N₂ n₁ n₂ : Nat} (inLoop : Bool) (h : S.Beside c₁ c₂) (hm : c₁.ahead < m)
    (hN₁ : m ≤ N₁) (hN₂ : m + S.more₂.length ≤ N₂) (hn₁ : m ≤ n₁) (hn₂ : m + S.more₂.length ≤ n₂) :
    Tandem S 0 (statement (nested N₁) n₁ inLoop) (statement (nested N₂) n₂ inLoop) c₁ c₂ Stmt.Same := by
  have halone : S.more₁.length = 0 := by rw [hS.alone, List.length_nil]
  induction n₁ generalizing m n₂ c₁ c₂ inLoop with
  | zero => omega
  | succ n₁ ih =>
    obtain ⟨m, rfl⟩ : ∃ j, m = j + 1 := ⟨m - 1, by omega⟩
    obtain ⟨n₂, rfl⟩ : ∃ j, n₂ = j + 1 := ⟨n₂ - 1, by omega⟩
    have hstatement (inLoop : Bool) {d₁ d₂ : Cursor} (h : S.Abreast d₁ d₂) (hd : d₁.ahead < m) :
        Tandem S 0 (statement (nested N₁) n₁ inLoop) (statement (nested N₂) n₂ inLoop) d₁ d₂ Stmt.Same :=
      ih inLoop h.toBeside hd (by omega) (by omega) (by omega) (by omega)
    have hclausal (inLoop : Bool) : Clausal (statement (nested N₁) n₁ inLoop) := clausal_statement N₁ n₁ inLoop
    refine tandem_statementOf ⟨⟨phrasal_nested N₁, fun inner => passing_block (hclausal inner), hclausal inLoop⟩,
      paired_nested hN₁ (by omega), paired_nested (by omega) ?_, fun inner {_ _} h hd => ?_, hstatement inLoop⟩
      hS inLoop h (Nat.le_of_lt_succ hm)
    · change m + 1 + S.more₂.length + S.more₁.length ≤ N₁ + S.more₂.length
      omega
    · exact tandem_block hS (hclausal inner) (hstatement inner) h hd

end Parse

end DeskScript
