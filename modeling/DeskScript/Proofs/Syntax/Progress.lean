import DeskScript.Proofs.Syntax.Rounds

set_option autoImplicit false

/-!
# The parser makes progress

Whatever is nested in an expression or a statement is parsed from beyond its first token, so nesting is never deeper than
there are tokens ahead; neither the bound on nesting nor the one on the rounds of a loop is ever reached. Main statement:
`parsing_progresses`.
-/

namespace DeskScript

namespace Parse

open Cursor Token

variable {Call : (α : Type) → Parse α → Parse α → Prop} {c : Cursor}

def partsOf (d n : Nat) (inLoop : Bool) : Parts :=
  ⟨nested d, fun inner => block (statement (nested d) n inner), statement (nested d) n inLoop⟩

theorem statement_succ (d n : Nat) (inLoop : Bool) :
    statement (nested d) (n + 1) inLoop = statementOf (partsOf d n inLoop) inLoop := rfl

/-- Expressions go along with themselves, however deep they may be nested, and without any calls. -/
theorem along_nested (d : Nat) :
    Along Call (nested d).expression (nested d).expression ∧ Along Call (nested d).unary (nested d).unary := by
  induction d with
  | zero =>
    have hfails : Along Call (expected "expression" : Parse Expr) (expected "expression") := inferInstance
    exact ⟨hfails, hfails⟩
  | succ d ih =>
    have := ih.1
    have := ih.2
    exact ⟨inferInstanceAs (Along Call (orLevel (nested d)) (orLevel (nested d))),
      inferInstanceAs (Along Call (unaryLevel (nested d)) (unaryLevel (nested d)))⟩

instance (d : Nat) : Along Call (nested d).expression (nested d).expression := (along_nested d).1

instance (d : Nat) : Along Call (nested d).unary (nested d).unary := (along_nested d).2

/-- Two bounds on nesting that are the same, or that are both larger than the number of tokens ahead. -/
def Ample (c : Cursor) (d₁ d₂ : Nat) : Prop := d₁ = d₂ ∨ c.ahead < d₁ ∧ c.ahead < d₂

theorem Ample.beyond {c' : Cursor} {d₁ d₂ : Nat} (h : Ample c (d₁ + 1) (d₂ + 1)) (hc' : c.Beyond c') : Ample c' d₁ d₂ := by
  have := hc'.ahead_lt
  unfold Ample at h ⊢
  omega

theorem Ample.forth {c' : Cursor} {d₁ d₂ : Nat} (h : Ample c d₁ d₂) (hc' : c.Forth c') : Ample c' d₁ d₂ := by
  have := hc'.ahead_le
  unfold Ample at h ⊢
  omega

theorem strides_nested {d₁ d₂ : Nat} (hc : c.Ends) (hd : Ample c d₁ d₂) :
    Strides (nested d₁).expression (nested d₂).expression c ∧ Strides (nested d₁).unary (nested d₂).unary c := by
  induction d₁ generalizing d₂ c with
  | zero =>
    obtain rfl : d₂ = 0 := by unfold Ample at hd; omega
    exact ⟨.expected _, .expected _⟩
  | succ d₁ ih =>
    obtain ⟨d₂, rfl⟩ : ∃ d, d₂ = d + 1 := ⟨d₂ - 1, by unfold Ample at hd; omega⟩
    have : Along (Agree c) (nested d₁).expression (nested d₂).expression :=
      .call fun c' hc' => (ih (hc'.forth.ends hc) (hd.beyond hc')).1.inStep
    have : Along (Agree c) (nested d₁).unary (nested d₂).unary :=
      .call fun c' hc' => (ih (hc'.forth.ends hc) (hd.beyond hc')).2.inStep
    exact ⟨strides_orLevel hc, strides_unaryLevel hc⟩

theorem strides_statement {d₁ d₂ n₁ n₂ : Nat} (hc : c.Ends) (hd : Ample c d₁ d₂) (hn : Ample c n₁ n₂) (inLoop : Bool) :
    Strides (statement (nested d₁) n₁ inLoop) (statement (nested d₂) n₂ inLoop) c := by
  induction n₁ generalizing n₂ c inLoop with
  | zero =>
    obtain rfl : n₂ = 0 := by unfold Ample at hn; omega
    exact .expected _
  | succ n₁ ih =>
    obtain ⟨n₂, rfl⟩ : ∃ n, n₂ = n + 1 := ⟨n₂ - 1, by unfold Ample at hn; omega⟩
    have : Along (Agree c) (nested d₁).expression (nested d₂).expression :=
      .call fun c' hc' => (strides_nested (hc'.forth.ends hc) (hd.forth hc'.forth)).1.inStep
    have : Along (Agree c) (nested d₁).unary (nested d₂).unary :=
      .call fun c' hc' => (strides_nested (hc'.forth.ends hc) (hd.forth hc'.forth)).2.inStep
    have hinner (inner : Bool) : Along (Agree c) (statement (nested d₁) n₁ inner) (statement (nested d₂) n₂ inner) :=
      .call fun c' hc' => (ih (hc'.forth.ends hc) (hd.forth hc'.forth) (hn.beyond hc') inner).inStep
    have (inner : Bool) :
        Along (Agree c) (block (statement (nested d₁) n₁ inner)) (block (statement (nested d₂) n₂ inner)) := inferInstance
    exact strides_statementOf hc (strides_nested hc hd).1 inLoop

theorem striding_expression (d : Nat) : Striding (nested d).expression := fun _ hc => (strides_nested hc (.inl rfl)).1

theorem striding_unary (d : Nat) : Striding (nested d).unary := fun _ hc => (strides_nested hc (.inl rfl)).2

theorem striding_statement (d n : Nat) (inLoop : Bool) : Striding (statement (nested d) n inLoop) := fun _ hc =>
  strides_statement hc (.inl rfl) (.inl rfl) inLoop

def WovenCall (α : Type) (p _ : Parse α) : Prop := Woven p

theorem woven_block {s : Parse Stmt} (hs : Woven s) : Woven (block s) := by
  have : Along WovenCall s s := .call hs
  have hblock : Along WovenCall (block s) (block s) := inferInstance
  exact hblock.woven id

theorem woven_statement (d n : Nat) (inLoop : Bool) : Woven (statement (nested d) n inLoop) := by
  induction n generalizing inLoop with
  | zero =>
    have hfails : Along NoCall (expected "statement" : Parse Stmt) (expected "statement") := inferInstance
    exact hfails.woven fun h => h.elim
  | succ n ih =>
    let p := partsOf d n inLoop
    have : Along WovenCall p.nested.expression p.nested.expression := (along_nested d).1
    have : Along WovenCall p.nested.unary p.nested.unary := (along_nested d).2
    have : Along WovenCall p.statement p.statement := .call (ih inLoop)
    have (inner : Bool) : Along WovenCall (p.body inner) (p.body inner) := .call (woven_block (ih inner))
    have hmessage (words : List Keyword) : Returning WovenCall (messageUntil p words) (messageUntil p words) :=
      returning_message _
    have hvariable : Returning WovenCall (variableStatement p) (variableStatement p) := returning_variableStatement
    have hbranch : Returning WovenCall (branchStatement p inLoop) (branchStatement p inLoop) :=
      returning_branchStatement inLoop
    have (words : List Keyword) : Along WovenCall (messageUntil p words) (messageUntil p words) :=
      .call ((hmessage words).woven id)
    have : Along WovenCall (variableStatement p) (variableStatement p) := .call (hvariable.woven id)
    have : Along WovenCall (branchStatement p inLoop) (branchStatement p inLoop) := .call (hbranch.woven id)
    have hstatement : Along WovenCall (statementOf p inLoop) (statementOf p inLoop) := inferInstance
    rw [statement_succ]
    exact hstatement.woven id

theorem woven_program (lines : Array String) : Woven (program lines) := by
  have (n : Nat) : Along WovenCall (statement (nested (n + 1)) (n + 1) false) (statement (nested (n + 1)) (n + 1) false) :=
    .call (woven_statement (n + 1) (n + 1) false)
  have hprogram : Along WovenCall (program lines) (program lines) := by
    unfold program
    infer_instance
  exact hprogram.woven id

inductive PartCall (p : Parts) : (α : Type) → Parse α → Parse α → Prop where
  | body (inLoop : Bool) : PartCall p (Block Stmt) (p.body inLoop) (p.body inLoop)
  | statement : PartCall p Stmt p.statement p.statement

inductive StatementCall (p : Parts) (inLoop : Bool) : (α : Type) → Parse α → Parse α → Prop where
  | body (inner : Bool) : StatementCall p inLoop (Block Stmt) (p.body inner) (p.body inner)
  | message (words : List Keyword) : StatementCall p inLoop Expr (messageUntil p words) (messageUntil p words)
  | variableStatement : StatementCall p inLoop Stmt (variableStatement p) (variableStatement p)
  | branchStatement : StatementCall p inLoop Stmt (branchStatement p inLoop) (branchStatement p inLoop)

/-- The parser, called at the cursor, goes back at most once, its calls apart, and never stands before the cursor. -/
structure TurnsOnce {α : Type} (Call : (α : Type) → Parse α → Parse α → Prop) (p : Parse α) (c : Cursor) : Prop where
  once : Returning Call p p
  stays : Stays c.Forth p c

/-- What goes back does so at most once, and not to before where it began. Expressions do not go back, so a message and
a statement that begins with a variable have no calls to be set apart; nor do other statements, their calls apart. -/
structure Turns (d : Nat) (c : Cursor) : Prop where
  expression : Along NoCall (nested d).expression (nested d).expression
  message : ∀ stops, TurnsOnce NoCall (message (nested d).expression stops) c
  variableStatement : ∀ n inLoop, TurnsOnce NoCall (variableStatement (partsOf d n inLoop)) c
  branchStatement : ∀ n inLoop,
    TurnsOnce (PartCall (partsOf d n inLoop)) (branchStatement (partsOf d n inLoop) inLoop) c
  statement : ∀ n inLoop, Along (StatementCall (partsOf d n inLoop) inLoop) (statementOf (partsOf d n inLoop) inLoop)
    (statementOf (partsOf d n inLoop) inLoop)

theorem turns (d : Nat) (c : Cursor) : Turns d c where
  expression := inferInstance
  message stops := by
    have honce : Returning NoCall (message (nested d).expression stops) (message (nested d).expression stops) :=
      returning_message stops
    exact ⟨honce, (honce.woven fun h => h.elim).forth⟩
  variableStatement n inLoop := by
    let p := partsOf d n inLoop
    have : Along NoCall p.nested.expression p.nested.expression := (along_nested d).1
    have honce : Returning NoCall (Parse.variableStatement p) (Parse.variableStatement p) := returning_variableStatement
    exact ⟨honce, (honce.woven fun h => h.elim).forth⟩
  branchStatement n inLoop := by
    let p := partsOf d n inLoop
    have : Along (PartCall p) p.nested.expression p.nested.expression := (along_nested d).1
    have (inner : Bool) : Along (PartCall p) (p.body inner) (p.body inner) := .call (.body inner)
    have : Along (PartCall p) p.statement p.statement := .call .statement
    have honce : Returning (PartCall p) (Parse.branchStatement p inLoop) (Parse.branchStatement p inLoop) :=
      returning_branchStatement inLoop
    refine ⟨honce, (honce.woven fun h => ?_).forth⟩
    cases h with
    | body inner => exact woven_block (woven_statement d n inner)
    | statement => exact woven_statement d n inLoop
  statement n inLoop := by
    let p := partsOf d n inLoop
    have : Along (StatementCall p inLoop) p.nested.expression p.nested.expression := (along_nested d).1
    have : Along (StatementCall p inLoop) p.nested.unary p.nested.unary := (along_nested d).2
    have (inner : Bool) : Along (StatementCall p inLoop) (p.body inner) (p.body inner) := .call (.body inner)
    have (words : List Keyword) : Along (StatementCall p inLoop) (messageUntil p words) (messageUntil p words) :=
      .call (.message words)
    have : Along (StatementCall p inLoop) (Parse.variableStatement p) (Parse.variableStatement p) := .call .variableStatement
    have : Along (StatementCall p inLoop) (Parse.branchStatement p inLoop) (Parse.branchStatement p inLoop) :=
      .call .branchStatement
    exact (inferInstance : Along (StatementCall p inLoop) (statementOf p inLoop) (statementOf p inLoop))

structure Loops (d n : Nat) (c : Cursor) : Prop where
  newlines : Progresses (fun rounds (_ : Unit) => skipWhile (·.content matches .newline) rounds) c
  terminators : Progresses (fun rounds (_ : Unit) => skipWhile Token.isTerminator rounds) c
  products : ∀ start, Progresses (chainFrom (unaryLevel (nested d)) productOperator? Expr.binary start) c
  sums : ∀ start, Progresses (chainFrom (productLevel (nested d)) sumOperator? Expr.binary start) c
  comparisons : ∀ start, Progresses (chainFrom (sumLevel (nested d)) comparisonOperator? Expr.binary start) c
  conjunctions : ∀ start, Progresses (chainFrom (comparisonLevel (nested d)) (logicOperator? .and) Expr.logic start) c
  disjunctions : ∀ start, Progresses (chainFrom (andLevel (nested d)) (logicOperator? .or) Expr.logic start) c
  accessors : ∀ start, Progresses (accessorsFrom (nested d).expression start) c
  items : ∀ close, Progresses (itemsFrom (nested d).expression close) c
  entries : Progresses (entriesFrom (nested d).expression) c
  wordParts : Progresses wordPartsFrom c
  spacedArguments : Progresses (spacedFrom (nested d)) c
  message : ∀ words : List Keyword, Progresses (skipMessage fun t => t.endsStatement || words.any t.hasKeyword) c
  target : ∀ start, Progresses (targetFrom (nested d).expression start) c
  parameters : Progresses parametersFrom c
  keyValues : ∀ inLoop, Progresses (keyValuesFrom (partsOf d n inLoop)) c
  block : ∀ inLoop, Progresses (statementsFrom (statement (nested d) n inLoop) endStatement closes) c
  program : Progresses (statementsFrom (statement (nested d) n false) endStatement (at_ (·.isFinish))) c

theorem loops (hc : c.Ends) (d n : Nat) : Loops d n c where
  newlines := .of_advances hc fun c hc => advances_skipWhile hc fun t h => by
    have hnewline : t.content = .newline := by
      split at h <;> simp_all
    simp [isFinish, hnewline]
  terminators := .of_advances hc fun c hc => advances_skipWhile hc fun t h => (safe_terminator h).1
  products start := .of_advances hc fun c hc => advances_chainFrom .alone hc (isPlain_of_productOperator _ _) _ start
  sums start := .of_advances hc fun c hc => advances_chainFrom .alone hc (isPlain_of_sumOperator _ _) _ start
  comparisons start := .of_advances hc fun c hc => advances_chainFrom .alone hc (isPlain_of_comparisonOperator _ _) _ start
  conjunctions start := .of_advances hc fun c hc => advances_chainFrom .alone hc (isPlain_of_logicOperator _ _) _ start
  disjunctions start := .of_advances hc fun c hc => advances_chainFrom .alone hc (isPlain_of_logicOperator _ _) _ start
  accessors start := .of_advances hc fun c hc => advances_accessorsFrom .alone hc start
  items close := .of_advances hc fun c hc => advances_itemsFrom .alone hc close
  entries := .of_advances hc fun c hc => advances_entriesFrom .alone hc
  wordParts := .of_advances hc fun c hc => advances_wordPartsFrom hc
  spacedArguments := .of_advances hc fun c hc => advances_spacedFrom hc (striding_expression d) (striding_unary d)
  message words := .of_advances hc fun c hc => advances_skipMessage hc fun t h => by
    rw [show t.endsStatement = true by unfold isFinish at h; unfold endsStatement; split at h <;> simp_all, Bool.true_or]
  target start := .of_advances hc fun c hc => advances_targetFrom .alone hc start
  parameters := .of_advances hc fun c hc => advances_parametersFrom hc
  keyValues inLoop := .of_advances hc fun c hc => advances_keyValuesFrom hc (striding_expression d)
  block inLoop := .of_advances hc fun c hc => advances_statementsFrom hc (striding_statement d n inLoop) .alone .alone
  program := .of_advances hc fun c hc => advances_statementsFrom hc (striding_statement d n false) .alone .alone

/-- Whatever is called again from within an expression, a statement or a block is called from beyond the cursor: parsers
that agree there may take its place. What succeeds has passed a token. -/
structure Cycles (c : Cursor) : Prop where
  expression : ∀ n₁ n₂ : Nested, Agree c Expr n₁.expression n₂.expression → Agree c Expr n₁.unary n₂.unary →
    Strides (orLevel n₁) (orLevel n₂) c
  unary : ∀ n₁ n₂ : Nested, Agree c Expr n₁.expression n₂.expression → Agree c Expr n₁.unary n₂.unary →
    Strides (unaryLevel n₁) (unaryLevel n₂) c
  statement : ∀ (d : Nat) (inLoop : Bool) (body₁ body₂ : Bool → Parse (Block Stmt)) (statement₁ statement₂ : Parse Stmt),
    (∀ inner, Agree c (Block Stmt) (body₁ inner) (body₂ inner)) → Agree c Stmt statement₁ statement₂ →
    Strides (statementOf ⟨nested d, body₁, statement₁⟩ inLoop) (statementOf ⟨nested d, body₂, statement₂⟩ inLoop) c
  block : ∀ statement₁ statement₂, Agree c Stmt statement₁ statement₂ → Strides (block statement₁) (block statement₂) c

theorem cycles (hc : c.Ends) : Cycles c where
  expression n₁ n₂ hexpression hunary := by
    have : Along (Agree c) n₁.expression n₂.expression := .call hexpression
    have : Along (Agree c) n₁.unary n₂.unary := .call hunary
    exact strides_orLevel hc
  unary n₁ n₂ hexpression hunary := by
    have : Along (Agree c) n₁.expression n₂.expression := .call hexpression
    have : Along (Agree c) n₁.unary n₂.unary := .call hunary
    exact strides_unaryLevel hc
  statement d inLoop body₁ body₂ statement₁ statement₂ hbody hstatement := by
    let p₁ : Parts := ⟨nested d, body₁, statement₁⟩
    let p₂ : Parts := ⟨nested d, body₂, statement₂⟩
    have : Along (Agree c) p₁.nested.expression p₂.nested.expression := (along_nested d).1
    have : Along (Agree c) p₁.nested.unary p₂.nested.unary := (along_nested d).2
    have (inner : Bool) : Along (Agree c) (p₁.body inner) (p₂.body inner) := .call (hbody inner)
    have : Along (Agree c) p₁.statement p₂.statement := .call hstatement
    have hexpression : Strides p₁.nested.expression p₂.nested.expression c := striding_expression d c hc
    exact strides_statementOf hc hexpression inLoop
  block statement₁ statement₂ hstatement := by
    have : Along (Agree c) statement₁ statement₂ := .call hstatement
    exact strides_block hc

def programWithin (depth rounds : Nat) (lines : Array String) : Parse Program := do
  let start ← here
  let statements ← statementsFrom (statement (nested depth) depth false) endStatement (at_ (·.isFinish)) rounds []
  return { span := ← spanFrom start, statements, lines }

/-- Bounds that are larger than the number of tokens ahead are not reached. -/
theorem run_programWithin (hc : c.Ends) {depth rounds : Nat} (hdepth : c.ahead < depth) (hrounds : c.ahead < rounds)
    (lines : Array String) : (programWithin depth rounds lines).run c = (program lines).run c := by
  have hstatement : AgreeFrom c Stmt (statement (nested (c.ahead + 2)) (c.ahead + 2) false)
      (statement (nested depth) depth false) := fun c' hc' => by
    have hample : Ample c (c.ahead + 2) depth := .inr ⟨by omega, hdepth⟩
    exact (strides_statement (hc'.ends hc) (hample.forth hc') (hample.forth hc') false).inStep
  have : Along (AgreeFrom c) (statement (nested (c.ahead + 2)) (c.ahead + 2) false) (statement (nested depth) depth false) :=
    .call hstatement
  have halong (n : Nat) : Along (AgreeFrom c)
      (statementsFrom (statement (nested (c.ahead + 2)) (c.ahead + 2) false) endStatement (at_ (·.isFinish)) n [])
      (statementsFrom (statement (nested depth) depth false) endStatement (at_ (·.isFinish)) n []) := inferInstance
  unfold program programWithin
  rw [run_bind_gives (gives_here c), run_bind_gives (gives_here c), run_bind_gives (gives_rounds c), StateT.run_bind,
    StateT.run_bind, (loops hc depth depth).program.enough rounds [] hrounds,
    ((halong (c.ahead + 1)).inStep fun h => h).same]

end Parse

open Cursor

/-- From a list of tokens that ends in a `finish` token a script comes or a syntax error, and no bound is reached on the way.
The parser stands only where it comes by passing tokens, of which none is a `finish` token. There each round of a loop
passes a token or ends the loop, what is called again from within an expression or a statement is called from beyond its
first token, and what goes back does so once in a call and not to before its own start. -/
theorem parsing_progresses {ts body : List Token} {last : Token} (given : Option String) (hts : ts = body ++ [last])
    (hlast : last.isFinish = true) :
    ((∃ p, parseTokens ts given = .ok p) ∨ ∃ e, parseTokens ts given = .error e ∧ e.cause.category = .syntactic) ∧
    (∀ lines depth rounds, ts.length ≤ depth → ts.length ≤ rounds →
      (Parse.programWithin depth rounds lines).run (ofTokens given ts) = (Parse.program lines).run (ofTokens given ts)) ∧
    (∀ lines, Parse.Stays (ofTokens given ts).Forth (Parse.program lines) (ofTokens given ts)) ∧
    ∀ c, (ofTokens given ts).Forth c →
      (∃ passed, ts = passed ++ c.tokens ∧ ∀ t ∈ passed, t.isFinish = false) ∧
      (∀ d n, Parse.Loops d n c) ∧ Parse.Cycles c ∧ ∀ d, Parse.Turns d c := by
  have htokens : (ofTokens given ts).tokens = ts := ofTokens_tokens given (by simp [hts])
  have hc : (ofTokens given ts).Ends := ⟨body, last, by rw [htokens, hts], hlast⟩
  have hlength : (ofTokens given ts).ahead + 1 = ts.length := by
    rw [← congrArg List.length htokens]
    rfl
  refine ⟨?_, fun lines depth rounds hdepth hrounds => ?_, fun lines => ?_, fun c hforth => ?_⟩
  · cases hparse : parseTokens ts given with
    | ok p => exact .inl ⟨p, rfl⟩
    | error e =>
      obtain ⟨trouble, hcause, -, hblames⟩ := program_blames hts hlast hparse
      exact .inr ⟨e, rfl, hcause ▸ hblames.syntactic⟩
  · exact Parse.run_programWithin hc (by omega) (by omega) lines
  · exact (Parse.woven_program lines).forth
  · have hends := hforth.ends hc
    obtain ⟨passed, hpassed, hinner⟩ := hforth.passed
    exact ⟨⟨passed, htokens ▸ hpassed, hinner⟩, Parse.loops hends, Parse.cycles hends, fun d => Parse.turns d c⟩

def unclosedMessage : List Token :=
  [⟨.keyword .print, "print", default⟩, ⟨.symbol .leftParen, "(", default⟩, ⟨.finish, "", default⟩]

theorem parsing_progresses_unclosed : ∃ p, parseTokens unclosedMessage none = .ok p ∧
    ∀ stops, Parse.TurnsOnce Parse.NoCall (Parse.message (Parse.nested 4).expression stops)
      (ofTokens none unclosedMessage).next := by
  have hts : unclosedMessage = unclosedMessage.take 2 ++ [⟨.finish, "", default⟩] := rfl
  obtain ⟨-, -, -, hreached⟩ := parsing_progresses none hts rfl
  exact ⟨_, rfl, ((hreached _ (forth_next _)).2.2.2 4).message⟩

end DeskScript
