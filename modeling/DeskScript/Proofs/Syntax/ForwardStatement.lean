import DeskScript.Proofs.Syntax.ForwardExpression

set_option autoImplicit false

/-!
# Parsers of statements move forward

Messages, statements that begin with a variable, and branches may go back, at most once in a call and to a place that was
reached in it: a message to where it begins, such a statement too, and a branch to the end of its first block. All other
parsers move forward only. Main statements: `Parse.returning_message`, `Parse.returning_variableStatement`,
`Parse.returning_branchStatement`, `Parse.strides_statementOf`.
-/

namespace DeskScript

namespace Parse

open Cursor

variable {Call : (α : Type) → Parse α → Parse α → Prop} {α : Type}

def wholeMessage (expression : Parse Expr) (stops : Token → Bool) : Parse (Option Expr) := do
  let e ← expression
  if ← at_ stops then return some e else return none

def rawMessageFrom (start : Token) (stops : Token → Bool) : Parse Expr := do
  let source ← observe fun v => .ok v.source
  let lexemes ← skipMessage stops (← rounds) []
  let span ← spanFrom start
  return rawMessage span (rawText source span lexemes.reverse)

theorem run_wholeMessage (expression : Parse Expr) (stops : Token → Bool) (c : Cursor) :
    (wholeMessage expression stops).run c = match expression.run c with
      | .ok (e, c') => .ok (if stops c'.here then some e else none, c')
      | .error trouble => .error trouble := by
  unfold wholeMessage
  rw [StateT.run_bind]
  cases expression.run c with
  | error trouble => rfl
  | ok found =>
    change (if stops found.2.here then pure (some found.1) else pure none : Parse (Option Expr)).run found.2 = _
    dsimp only
    split <;> rfl

/-- A message is tried as an expression, and read as raw text from the same place otherwise. -/
theorem message_eq (expression : Parse Expr) (stops : Token → Bool) : message expression stops = (do
    let start ← here
    if stops start then return .literal start.span (.text "")
    else retry true (wholeMessage expression stops) (rawMessageFrom start stops)) := by
  funext c
  unfold message
  change (if stops c.here then _ else _ : Parse Expr).run c = (if stops c.here then _ else _ : Parse Expr).run c
  split
  · rfl
  · rw [run_bind_gives (gives_get c), run_retry, run_wholeMessage]
    cases expression.run c with
    | error trouble => rfl
    | ok found =>
      dsimp only
      cases stops found.2.here <;> rfl

instance (stops : Token → Bool) (n : Nat) (lexemes : List String) :
    Along Call (skipMessage stops n lexemes) (skipMessage stops n lexemes) := by
  induction n generalizing lexemes with
  | zero => exact inferInstanceAs (Along Call (pure _) (pure _))
  | succ n ih =>
    unfold skipMessage
    infer_instance

instance (f : View → Except SyntaxTrouble α) : Along Call (observe f) (observe f) := .observe f

/-- A message goes back at most once, to where it begins. -/
theorem returning_message {e₁ e₂ : Parse Expr} [Along Call e₁ e₂] (stops : Token → Bool) :
    Returning Call (message e₁ stops) (message e₂ stops) := by
  have hwhole : Along Call (wholeMessage e₁ stops) (wholeMessage e₂ stops) := by
    unfold wholeMessage
    infer_instance
  have hraw (start : Token) : Along Call (rawMessageFrom start stops) (rawMessageFrom start stops) := by
    unfold rawMessageFrom
    infer_instance
  rw [message_eq, message_eq]
  refine .before inferInstance fun start => ?_
  split
  · exact .along inferInstance
  · exact .retry true hwhole (hraw start)

def assignedTarget (p : Parts) : Parse (Target × Bool) := do
  let target ← target p.expression false
  return (target, ← acceptSymbol .assign)

def assignedValue (p : Parts) (start : Token) (target : Target) : Parse Stmt := do
  let value ← p.expression
  return .assign (← spanFrom start) target value

theorem variableStatement_eq (p : Parts) : variableStatement p = here >>= fun start =>
    retry false (assignedTarget p >>= fun a => if a.2 then some <$> assignedValue p start a.1 else pure none)
      (expressionStatement p) := by
  unfold variableStatement
  refine bind_congr fun start => ?_
  rw [retry_eq]
  refine bind_congr fun saved => ?_
  unfold assignedTarget assignedValue
  simp only [bind_assoc, pure_bind]

def elseFollows : Parse Bool := do
  skipNewlines
  acceptKeyword .elseWord

def elseBranch (p : Parts) (inLoop : Bool) (build : Option (Block Stmt) → Parse Stmt) : Parse Stmt := do
  if ← at_ (·.hasKeyword .ifWord) then
    let inner ← p.statement
    build (some ⟨inner.span, [inner]⟩)
  else build (some (← p.body inLoop))

def branchFrom (p : Parts) (inLoop : Bool) (start : Token) : Parse Stmt := do
  let condition ← p.expression
  let _ ← acceptKeyword .thenWord
  let thenBlock ← p.body inLoop
  let build (elseBlock : Option (Block Stmt)) : Parse Stmt :=
    return .branch (← spanFrom start) condition thenBlock elseBlock
  retry false (elseFollows >>= fun b => if b then some <$> elseBranch p inLoop build else pure none) (build none)

theorem branchStatement_eq (p : Parts) (inLoop : Bool) : branchStatement p inLoop = advance >>= branchFrom p inLoop := by
  unfold branchStatement
  refine bind_congr fun start => ?_
  unfold branchFrom
  refine bind_congr fun condition => bind_congr fun _ => bind_congr fun thenBlock => ?_
  rw [retry_eq]
  refine bind_congr fun saved => ?_
  unfold elseFollows elseBranch
  simp only [bind_assoc, pure_bind, map_eq_pure_bind]

def commandStatement (p : Parts) (t : Token) (k : Keyword) : Parse Stmt :=
  match command? p k with
  | some operands => do
    let _ ← advance
    let request ← operands
    return .command (← spanFrom t) request
  | none => if beginsArgument t then expressionStatement p else expected "statement"

instance : Along Call endStatement endStatement := by
  unfold endStatement
  refine along_get (fun _ => rfl) (fun _ => rfl) fun c => ?_
  split <;> infer_instance

instance (what : String) : Along Call (variableName what) (variableName what) := by
  unfold variableName
  refine .bind inferInstance fun t => ?_
  split <;> infer_instance

instance (what : String) : Along Call (plainName what) (plainName what) := by
  unfold plainName
  infer_instance

instance : Along Call parameter parameter := by
  unfold parameter
  refine .bind inferInstance fun t => ?_
  split <;> infer_instance

instance (n : Nat) (done : List String) : Along Call (parametersFrom n done) (parametersFrom n done) := by
  induction n generalizing done with
  | zero => exact inferInstanceAs (Along Call (pure _) (pure _))
  | succ n ih =>
    unfold parametersFrom
    infer_instance

instance : Along Call parameters parameters := by
  unfold parameters
  infer_instance

instance : Along Call intoVariable intoVariable := by
  unfold intoVariable
  infer_instance

instance (inLoop : Bool) (build : Span → Stmt) :
    Along Call (controlStatement inLoop build) (controlStatement inLoop build) := by
  unfold controlStatement
  infer_instance

instance {e₁ e₂ : Parse Expr} [Along Call e₁ e₂] (start : Token) (n : Nat) (t : Target) :
    Along Call (targetFrom e₁ start n t) (targetFrom e₂ start n t) := by
  induction n generalizing t with
  | zero => exact inferInstanceAs (Along Call (pure _) (pure _))
  | succ n ih =>
    unfold targetFrom
    refine .bind inferInstance fun key => ?_
    cases key <;> exact inferInstance

instance {e₁ e₂ : Parse Expr} [Along Call e₁ e₂] (allowBare : Bool) :
    Along Call (target e₁ allowBare) (target e₂ allowBare) := by
  unfold target
  refine .bind inferInstance fun t => ?_
  dsimp only
  split <;> infer_instance

instance {s₁ s₂ : Parse Stmt} {e₁ e₂ : Parse Unit} {b₁ b₂ : Parse Bool} [Along Call s₁ s₂] [Along Call e₁ e₂]
    [Along Call b₁ b₂] (n : Nat) (done : List Stmt) :
    Along Call (statementsFrom s₁ e₁ b₁ n done) (statementsFrom s₂ e₂ b₂ n done) := by
  induction n generalizing done with
  | zero => exact inferInstanceAs (Along Call (pure _) (pure _))
  | succ n ih =>
    unfold statementsFrom
    infer_instance

instance : Along Call closes closes := by
  unfold closes
  infer_instance

instance {s₁ s₂ : Parse Stmt} [Along Call s₁ s₂] : Along Call (block s₁) (block s₂) := by
  rw [block_eq, block_eq]
  infer_instance

section

variable {p₁ p₂ : Parts} [Along Call p₁.nested.expression p₂.nested.expression]

instance : Along Call p₁.expression p₂.expression :=
  inferInstanceAs (Along Call p₁.nested.expression p₂.nested.expression)

instance : Along Call (expressionStatement p₁) (expressionStatement p₂) := by
  unfold expressionStatement
  infer_instance

instance (n : Nat) (done : List (String × Expr)) : Along Call (keyValuesFrom p₁ n done) (keyValuesFrom p₂ n done) := by
  induction n generalizing done with
  | zero => exact inferInstanceAs (Along Call (pure _) (pure _))
  | succ n ih =>
    unfold keyValuesFrom
    refine .bind inferInstance fun key => ?_
    split
    · infer_instance
    · split
      · refine .bind inferInstance fun _ => .bind inferInstance fun _ => ?_
        infer_instance
      · infer_instance

instance : Along Call (keyValues p₁) (keyValues p₂) := by
  unfold keyValues
  infer_instance

/-- A statement that begins with a variable goes back at most once, to where it begins. -/
theorem returning_variableStatement : Returning Call (variableStatement p₁) (variableStatement p₂) := by
  have htarget : Along Call (assignedTarget p₁) (assignedTarget p₂) := by
    unfold assignedTarget
    infer_instance
  have hvalue (start : Token) (t : Target) : Along Call (assignedValue p₁ start t) (assignedValue p₂ start t) := by
    unfold assignedValue
    infer_instance
  rw [variableStatement_eq, variableStatement_eq]
  exact .before inferInstance fun start => .retry false inferInstance inferInstance

instance : Along Call (setStatement p₁) (setStatement p₂) := by
  unfold setStatement
  infer_instance

instance : Along Call (returnStatement p₁) (returnStatement p₂) := by
  unfold returnStatement
  infer_instance

instance : Along Call (emitStatement p₁) (emitStatement p₂) := by
  unfold emitStatement
  refine .bind inferInstance fun start => .bind inferInstance fun event => ?_
  exact along_get (fun _ => rfl) (fun _ => rfl) fun c => inferInstance

section

variable [∀ inner, Along Call (p₁.body inner) (p₂.body inner)]

theorem returning_branchFrom [Along Call p₁.statement p₂.statement] (inLoop : Bool) (start : Token) :
    Returning Call (branchFrom p₁ inLoop start) (branchFrom p₂ inLoop start) := by
  have hfollows : Along Call elseFollows elseFollows := by
    unfold elseFollows
    infer_instance
  have helse (build : Option (Block Stmt) → Parse Stmt) (hbuild : ∀ b, Along Call (build b) (build b)) :
      Along Call (elseBranch p₁ inLoop build) (elseBranch p₂ inLoop build) := by
    unfold elseBranch
    infer_instance
  unfold branchFrom
  refine .before inferInstance fun condition => .before inferInstance fun _ => .before inferInstance fun thenBlock => ?_
  have hbuild (elseBlock : Option (Block Stmt)) : Along Call
      (do return .branch (← spanFrom start) condition thenBlock elseBlock : Parse Stmt)
      (do return .branch (← spanFrom start) condition thenBlock elseBlock) := inferInstance
  exact .retry false (.bind hfollows fun b => by
    have := helse _ hbuild
    infer_instance) (hbuild none)

/-- A branch goes back at most once, to the end of its first block. -/
theorem returning_branchStatement [Along Call p₁.statement p₂.statement] (inLoop : Bool) :
    Returning Call (branchStatement p₁ inLoop) (branchStatement p₂ inLoop) := by
  rw [branchStatement_eq, branchStatement_eq]
  exact .before inferInstance (returning_branchFrom inLoop)

instance (start : Token) : Along Call (conditionalLoop p₁ start) (conditionalLoop p₂ start) := by
  unfold conditionalLoop
  infer_instance

instance : Along Call (loopStatement p₁) (loopStatement p₂) := by
  unfold loopStatement
  infer_instance

instance : Along Call (foreachStatement p₁) (foreachStatement p₂) := by
  unfold foreachStatement
  refine .bind inferInstance fun start => .bind inferInstance fun item => .bind inferInstance fun b => ?_
  infer_instance

instance : Along Call (defineStatement p₁) (defineStatement p₂) := by
  unfold defineStatement
  infer_instance

instance (inLoop : Bool) : Along Call (attemptStatement p₁ inLoop) (attemptStatement p₂ inLoop) := by
  unfold attemptStatement
  refine .bind inferInstance fun start => .bind inferInstance fun tryBlock => .bind inferInstance fun _ =>
    .bind inferInstance fun _ => .bind inferInstance fun t => ?_
  split <;> infer_instance

instance : Along Call (onStatement p₁) (onStatement p₂) := by
  unfold onStatement
  infer_instance

end

section

variable [∀ words, Along Call (messageUntil p₁ words) (messageUntil p₂ words)]

/-- The operands of a command are there for the same keywords. -/
theorem along_command (k : Keyword) : Option.Rel (Along Call) (command? p₁ k) (command? p₂ k) := by
  unfold command?
  split
  all_goals first | exact .none | exact .some inferInstance

instance (t : Token) (k : Keyword) : Along Call (commandStatement p₁ t k) (commandStatement p₂ t k) := by
  have hoperands : Option.Rel (Along Call) (command? p₁ k) (command? p₂ k) := along_command k
  unfold commandStatement
  generalize command? p₁ k = o₁, command? p₂ k = o₂ at hoperands
  cases hoperands with
  | none => exact inferInstance
  | some h => exact .bind inferInstance fun _ => .bind h fun _ => inferInstance

variable [Along Call p₁.nested.unary p₂.nested.unary]

instance : Along Call (otherCommand p₁) (otherCommand p₂) := by
  unfold otherCommand
  infer_instance

variable [∀ inner, Along Call (p₁.body inner) (p₂.body inner)] [Along Call (variableStatement p₁) (variableStatement p₂)]
  (inLoop : Bool) [Along Call (branchStatement p₁ inLoop) (branchStatement p₂ inLoop)]

/-- Only statements that begin with a variable, branches and messages may go back in a statement. -/
instance : Along Call (statementOf p₁ inLoop) (statementOf p₂ inLoop) := by
  unfold statementOf
  refine .bind inferInstance fun t => ?_
  split
  all_goals first | infer_instance | exact inferInstanceAs (Along Call (commandStatement p₁ t _) (commandStatement p₂ t _))

end

end

section

variable {c : Cursor} {p₁ p₂ : Parts} (hc : c.Ends)

include hc

theorem strides_target {e₁ e₂ : Parse Expr} [Along (Agree c) e₁ e₂] (allowBare : Bool) :
    Strides (target e₁ allowBare) (target e₂ allowBare) c := by
  unfold target
  refine .look (gives_here c) ?_
  dsimp only
  split <;> rename_i hhere
  all_goals try have hinner : c.here.isFinish = false := by simp [Token.isFinish, hhere]
  · exact .look (gives_pure _ c) (.passing hc hinner fun _ => inferInstance)
  · split
    · exact .look (gives_pure _ c) (.passing hc hinner fun _ => inferInstance)
    · exact .fail rfl rfl
  · exact .fail rfl rfl

variable (hexpression : Strides p₁.nested.expression p₂.nested.expression c)
include hexpression

omit hc in
theorem strides_expressionStatement : Strides (expressionStatement p₁) (expressionStatement p₂) c := by
  unfold expressionStatement
  exact .look (gives_here c) (hexpression.go fun _ => inferInstance)

variable [Along (Agree c) p₁.nested.expression p₂.nested.expression]

theorem strides_variableStatement : Strides (variableStatement p₁) (variableStatement p₂) c := by
  have htarget : Strides (assignedTarget p₁) (assignedTarget p₂) c := by
    unfold assignedTarget
    exact (strides_target hc false).go fun _ => inferInstance
  rw [variableStatement_eq, variableStatement_eq]
  refine .look (gives_here c) (.retry false (htarget.go fun a => ?_) (strides_expressionStatement hexpression))
  have : Along (Agree c) (assignedValue p₁ c.here a.1) (assignedValue p₂ c.here a.1) := by
    unfold assignedValue
    infer_instance
  infer_instance

instance (words : List Keyword) : Along (Agree c) (messageUntil p₁ words) (messageUntil p₂ words) :=
  .call (returning_message _).agree

theorem strides_commandStatement {k : Keyword} (hk : c.here.content = .keyword k) :
    Strides (commandStatement p₁ c.here k) (commandStatement p₂ c.here k) c := by
  have hoperands : Option.Rel (Along (Agree c)) (command? p₁ k) (command? p₂ k) := along_command k
  unfold commandStatement
  generalize command? p₁ k = o₁, command? p₂ k = o₂ at hoperands
  cases hoperands with
  | none =>
    dsimp only
    split
    · exact strides_expressionStatement hexpression
    · exact .expected _
  | some h => exact .passing hc (by simp [Token.isFinish, hk]) fun _ => .bind h fun _ => inferInstance

variable [∀ inner, Along (Agree c) (p₁.body inner) (p₂.body inner)] [Along (Agree c) p₁.statement p₂.statement]

omit hexpression in
theorem strides_branchStatement (hinner : c.here.isFinish = false) (inLoop : Bool) :
    Strides (branchStatement p₁ inLoop) (branchStatement p₂ inLoop) c := by
  rw [branchStatement_eq, branchStatement_eq]
  exact (Strides.advance hc hinner).bind fun start c' hc' => (returning_branchFrom inLoop start).agree c' hc'

variable [Along (Agree c) p₁.nested.unary p₂.nested.unary]

/-- Behind the first token of a statement the parsers of bodies and statements in it are called, and not before. -/
theorem strides_statementOf (inLoop : Bool) : Strides (statementOf p₁ inLoop) (statementOf p₂ inLoop) c := by
  have hargument : Strides (if beginsArgument c.here then expressionStatement p₁ else expected "statement")
      (if beginsArgument c.here then expressionStatement p₂ else expected "statement") c := by
    split
    · exact strides_expressionStatement hexpression
    · exact .expected _
  unfold statementOf
  refine .look (gives_here c) ?_
  split <;> rename_i hhere
  all_goals try have hinner : c.here.isFinish = false := by simp [Token.isFinish, hhere]
  · exact strides_variableStatement hc hexpression
  · exact .passing hc hinner fun _ => inferInstance
  · exact .passing hc hinner fun _ => inferInstance
  · exact strides_branchStatement hc hinner inLoop
  · exact .passing hc hinner fun _ => inferInstance
  · exact .passing hc hinner fun _ => inferInstance
  · refine .passing hc hinner fun _ => .bind inferInstance fun item => .bind inferInstance fun b => ?_
    infer_instance
  · exact .passing hc hinner fun _ => inferInstance
  · exact .passing hc hinner fun _ => inferInstance
  · exact .passing hc hinner fun _ => inferInstance
  · exact .passing hc hinner fun _ => inferInstance
  · refine .passing hc hinner fun _ => .bind inferInstance fun tryBlock => .bind inferInstance fun _ =>
      .bind inferInstance fun _ => .bind inferInstance fun t => ?_
    split <;> infer_instance
  · exact .passing hc hinner fun _ => inferInstance
  · refine .passing hc hinner fun _ => .bind inferInstance fun event => ?_
    exact along_get (fun _ => rfl) (fun _ => rfl) fun c => inferInstance
  · exact strides_expressionStatement hexpression
  · exact strides_commandStatement hc hexpression hhere
  · obtain ⟨b, hb, -⟩ := gives_atBareWord c
    refine .look hb ?_
    split
    · exact .passing hc hinner fun _ => inferInstance
    · exact strides_expressionStatement hexpression
  · exact hargument

omit hexpression in
/-- Behind its opening brace a block calls the parser of its statements, and not before. -/
theorem strides_block {s₁ s₂ : Parse Stmt} [Along (Agree c) s₁ s₂] : Strides (block s₁) (block s₂) c := by
  rw [block_eq, block_eq]
  refine .after Along.forth fun _ c' hforth => ?_
  refine (Strides.consume (hforth.ends hc) (fun t h => ?_) _).bind fun start c'' hbeyond =>
    Along.agree inferInstance c'' (hforth.beyond hbeyond)
  simp [Token.isFinish, (hasSymbol_iff _ _).1 h]

end

end Parse

end DeskScript
