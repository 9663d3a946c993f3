import DeskScript.Syntax.Statement

set_option autoImplicit false

/-!
# Break and continue in a parsed script

Whether every `leave` and `skip` of a statement lies in the body of a loop, with no function and no handler in between.
Main statement: `parseTokens_confined`.
-/

namespace DeskScript

namespace Stmt

mutual

def confined (inLoop : Bool) : Stmt → Bool
  | leave _ | skip _ => inLoop
  | counted _ ⟨_, body⟩ _ | conditional _ ⟨_, body⟩ _ | foreach _ _ _ ⟨_, body⟩ _ => allConfined true body
  | define _ _ _ ⟨_, body⟩ | on _ _ ⟨_, body⟩ => allConfined false body
  | branch _ _ ⟨_, yes⟩ none => allConfined inLoop yes
  | branch _ _ ⟨_, yes⟩ (some ⟨_, no⟩) => allConfined inLoop yes && allConfined inLoop no
  | attempt _ ⟨_, tryBlock⟩ ⟨_, catchBlock⟩ _ => allConfined inLoop tryBlock && allConfined inLoop catchBlock
  | assign _ _ _ | print _ _ | giveBack _ _ | command _ _ | emit _ _ _ | evaluate _ _ => true

def allConfined (inLoop : Bool) : List Stmt → Bool
  | [] => true
  | s :: rest => confined inLoop s && allConfined inLoop rest

end

theorem allConfined_eq_all (inLoop : Bool) (stmts : List Stmt) : allConfined inLoop stmts = stmts.all (confined inLoop) := by
  induction stmts with
  | nil => rfl
  | cons s rest ih => rw [allConfined, ih, List.all_cons]

end Stmt

namespace Block

def Confined (inLoop : Bool) (b : Block Stmt) : Prop := Stmt.allConfined inLoop b.statements = true

end Block

namespace Parse

variable {α β : Type}

def Yields (p : Parse α) (P : α → Prop) : Prop := ∀ c a c', p.run c = .ok (a, c') → P a

theorem yields_pure {P : α → Prop} {a : α} (h : P a) : Yields (pure a) P := by
  intro c b c' hrun
  cases hrun
  exact h

theorem yields_bind {P : β → Prop} {Q : α → Prop} {p : Parse α} {f : α → Parse β} (hp : Yields p Q)
    (hf : ∀ a, Q a → Yields (f a) P) : Yields (p >>= f) P := by
  intro c b c'' hrun
  rw [StateT.run_bind] at hrun
  cases hfirst : p.run c with
  | error e => simp [hfirst, bind, Except.bind] at hrun
  | ok first =>
    rw [hfirst] at hrun
    exact hf first.1 (hp c first.1 first.2 hfirst) first.2 b c'' hrun

/-- What a parser gives does not matter for what follows it. -/
theorem yields_then {P : β → Prop} {p : Parse α} {f : α → Parse β} (hf : ∀ a, Yields (f a) P) : Yields (p >>= f) P :=
  yields_bind (Q := fun _ => True) (fun _ _ _ _ => trivial) fun a _ => hf a

theorem yields_expected {P : α → Prop} (what : String) : Yields (expected what) P := by
  intro c a c' hrun
  cases hrun

theorem yields_failAt {P : α → Prop} (t : Token) (cause : Cause) : Yields (failAt t cause) P := by
  intro c a c' hrun
  cases hrun

theorem yields_map {P : β → Prop} {p : Parse α} {f : α → β} (h : Yields p fun a => P (f a)) : Yields (f <$> p) P := by
  rw [map_eq_pure_bind]
  exact yields_bind h fun a ha => yields_pure ha

variable {p : Parts} {inLoop : Bool}

structure Parts.Confined (p : Parts) (inLoop : Bool) : Prop where
  body : ∀ inner, Yields (p.body inner) (Block.Confined inner)
  statement : Yields p.statement fun s => s.confined inLoop = true

theorem statementsFrom_confined {statement : Parse Stmt} (h : Yields statement fun s => s.confined inLoop = true)
    (endStatement : Parse Unit) (stops : Parse Bool) (n : Nat) (done : List Stmt)
    (hdone : Stmt.allConfined inLoop done.reverse = true) :
    Yields (statementsFrom statement endStatement stops n done) fun stmts => Stmt.allConfined inLoop stmts = true := by
  induction n generalizing done with
  | zero => exact yields_pure hdone
  | succ n ih =>
    refine yields_then fun _ => yields_then fun stop => ?_
    split
    · exact yields_pure hdone
    · refine yields_bind h fun s hs => yields_then fun _ => ih (s :: done) ?_
      rw [Stmt.allConfined_eq_all] at hdone ⊢
      simp [List.all_append, hs, hdone]

theorem block_confined {statement : Parse Stmt} (h : Yields statement fun s => s.confined inLoop = true) :
    Yields (block statement) (Block.Confined inLoop) := by
  refine yields_then fun _ => yields_then fun _ => yields_then fun _ => ?_
  refine yields_bind (statementsFrom_confined h _ _ _ [] rfl) fun stmts hstmts => ?_
  exact yields_then fun _ => yields_then fun _ => yields_pure hstmts

theorem branch_confined {span : Span} {condition : Expr} {yes : Block Stmt} {no : Option (Block Stmt)}
    (hyes : yes.Confined inLoop) (hno : ∀ b ∈ no, b.Confined inLoop) :
    (Stmt.branch span condition yes no).confined inLoop = true := by
  cases no with
  | none => exact hyes
  | some b =>
    simp only [Stmt.confined, Bool.and_eq_true]
    exact ⟨hyes, hno b rfl⟩

theorem branchStatement_confined (hp : p.Confined inLoop) :
    Yields (branchStatement p inLoop) fun s => s.confined inLoop = true := by
  refine yields_then fun start => yields_then fun condition => yields_then fun _ => ?_
  refine yields_bind (hp.body inLoop) fun yes hyes => yields_then fun _ => yields_then fun _ => ?_
  have hbuild (no : Option (Block Stmt)) (hno : ∀ b ∈ no, b.Confined inLoop) :
      Yields (spanFrom start >>= fun span => pure (Stmt.branch span condition yes no)) fun s => s.confined inLoop = true :=
    yields_then fun _ => yields_pure (branch_confined hyes hno)
  refine yields_then fun orElse => ?_
  split
  · refine yields_then fun nested => ?_
    split
    · refine yields_bind hp.statement fun inner hinner => hbuild (some ⟨inner.span, [inner]⟩) ?_
      simpa [Block.Confined, Stmt.allConfined] using hinner
    · refine yields_bind (Q := fun no => ∀ b ∈ no, b.Confined inLoop) (yields_map ?_) hbuild
      simpa using hp.body inLoop
  · exact yields_then fun _ => hbuild none (by simp)

theorem attemptStatement_confined (hp : p.Confined inLoop) :
    Yields (attemptStatement p inLoop) fun s => s.confined inLoop = true := by
  refine yields_then fun start => yields_bind (hp.body inLoop) fun tryBlock htry => ?_
  refine yields_then fun _ => yields_then fun _ => yields_then fun t => ?_
  have hbuild (errorVar : Option String) : Yields (p.body inLoop >>= fun catchBlock => spanFrom start >>= fun span =>
      pure (Stmt.attempt span tryBlock catchBlock errorVar)) fun s => s.confined inLoop = true := by
    refine yields_bind (hp.body inLoop) fun catchBlock hcatch => yields_then fun _ => yields_pure ?_
    simp only [Stmt.confined, Bool.and_eq_true]
    exact ⟨htry, hcatch⟩
  split
  · exact yields_then fun _ => yields_then hbuild
  · exact yields_then hbuild

theorem conditionalLoop_confined (hp : p.Confined inLoop) (start : Token) :
    Yields (conditionalLoop p start) fun s => s.confined inLoop = true :=
  yields_then fun _ => yields_bind (hp.body true) fun _ hbody => yields_then fun _ => yields_pure hbody

theorem loopStatement_confined (hp : p.Confined inLoop) :
    Yields (loopStatement p) fun s => s.confined inLoop = true := by
  refine yields_then fun start => yields_then fun whilst => ?_
  split
  · exact conditionalLoop_confined hp start
  · exact yields_then fun _ => yields_bind (hp.body true) fun _ hbody => yields_then fun _ => yields_pure hbody

theorem foreachStatement_confined (hp : p.Confined inLoop) :
    Yields (foreachStatement p) fun s => s.confined inLoop = true := by
  refine yields_then fun start => yields_then fun item => yields_then fun indexed => ?_
  have hbuild (index : Option String) : Yields (consumeKeyword .inWord "'in'" >>= fun _ => p.expression >>= fun iterable =>
      p.body true >>= fun body => spanFrom start >>= fun span => pure (Stmt.foreach span item iterable body index))
      fun s => s.confined inLoop = true := by
    refine yields_then fun _ => yields_then fun _ => ?_
    exact yields_bind (hp.body true) fun _ hbody => yields_then fun _ => yields_pure hbody
  split
  · exact yields_then hbuild
  · exact yields_then hbuild

theorem controlStatement_confined {build : Span → Stmt} (h : ∀ span, (build span).confined true = true) :
    Yields (controlStatement inLoop build) fun s => s.confined inLoop = true := by
  refine yields_then fun t => ?_
  split
  · rename_i hloop
    exact yields_pure (by rw [hloop]; exact h t.span)
  · exact yields_failAt t _

theorem defineStatement_confined (hp : p.Confined inLoop) :
    Yields (defineStatement p) fun s => s.confined inLoop = true := by
  refine yields_then fun _ => yields_then fun _ => yields_then fun _ => ?_
  exact yields_bind (hp.body false) fun _ hbody => yields_then fun _ => yields_pure hbody

theorem onStatement_confined (hp : p.Confined inLoop) : Yields (onStatement p) fun s => s.confined inLoop = true := by
  refine yields_then fun _ => yields_then fun _ => ?_
  exact yields_bind (hp.body false) fun _ hbody => yields_then fun _ => yields_pure hbody

theorem expressionStatement_confined (p : Parts) : Yields (expressionStatement p) fun s => s.confined inLoop = true :=
  yields_then fun _ => yields_then fun _ => yields_then fun _ => yields_pure rfl

theorem setStatement_confined (p : Parts) : Yields (setStatement p) fun s => s.confined inLoop = true :=
  yields_then fun _ => yields_then fun _ => yields_then fun _ => yields_then fun _ => yields_then fun _ => yields_pure rfl

theorem variableStatement_confined (p : Parts) : Yields (variableStatement p) fun s => s.confined inLoop = true := by
  refine yields_then fun _ => yields_then fun _ => yields_then fun _ => yields_then fun assigned => ?_
  split
  · exact yields_then fun _ => yields_then fun _ => yields_pure rfl
  · exact yields_then fun _ => expressionStatement_confined p

theorem returnStatement_confined (p : Parts) : Yields (returnStatement p) fun s => s.confined inLoop = true := by
  refine yields_then fun _ => yields_then fun bare => ?_
  split
  · exact yields_then fun _ => yields_then fun _ => yields_pure rfl
  · exact yields_then fun _ => yields_then fun _ => yields_pure rfl

theorem emitStatement_confined (p : Parts) : Yields (emitStatement p) fun s => s.confined inLoop = true := by
  refine yields_then fun _ => yields_then fun _ => yields_then fun _ => ?_
  split
  · exact yields_then fun _ => yields_then fun _ => yields_pure rfl
  · split
    · exact yields_then fun _ => yields_then fun _ => yields_pure rfl
    · exact yields_then fun _ => yields_then fun _ => yields_pure rfl

theorem otherCommand_confined (p : Parts) : Yields (otherCommand p) fun s => s.confined inLoop = true :=
  yields_then fun _ => yields_then fun _ => yields_then fun _ => yields_then fun _ => yields_then fun _ => yields_pure rfl

theorem statementOf_confined (hp : p.Confined inLoop) :
    Yields (statementOf p inLoop) fun s => s.confined inLoop = true := by
  refine yields_then fun t => ?_
  split
  · exact variableStatement_confined p
  · exact setStatement_confined p
  · exact yields_then fun _ => yields_then fun _ => yields_then fun _ => yields_pure rfl
  · exact branchStatement_confined hp
  · exact loopStatement_confined hp
  · exact yields_then fun _ => conditionalLoop_confined hp t
  · exact foreachStatement_confined hp
  · exact controlStatement_confined fun _ => rfl
  · exact controlStatement_confined fun _ => rfl
  · exact returnStatement_confined p
  · exact defineStatement_confined hp
  · exact attemptStatement_confined hp
  · exact onStatement_confined hp
  · exact emitStatement_confined p
  · exact expressionStatement_confined p
  · split
    · exact yields_then fun _ => yields_then fun _ => yields_then fun _ => yields_pure rfl
    · split
      · exact expressionStatement_confined p
      · exact yields_expected _
  · refine yields_then fun bare => ?_
    split
    · exact otherCommand_confined p
    · exact expressionStatement_confined p
  · split
    · exact expressionStatement_confined p
    · exact yields_expected _

theorem statement_confined (nested : Nested) (n : Nat) (inLoop : Bool) :
    Yields (statement nested n inLoop) fun s => s.confined inLoop = true := by
  induction n generalizing inLoop with
  | zero => exact yields_expected _
  | succ n ih => exact statementOf_confined ⟨fun inner => block_confined (ih inner), ih inLoop⟩

end Parse

theorem parseTokens_confined {tokens : List Token} {source : Option String} {program : Program}
    (h : parseTokens tokens source = .ok program) : Stmt.allConfined false program.statements = true := by
  simp only [parseTokens] at h
  split at h
  · rename_i found c hrun
    cases h
    have hprogram : Parse.Yields (Parse.program (sourceLines source)) fun p => Stmt.allConfined false p.statements = true := by
      refine Parse.yields_then fun _ => Parse.yields_then fun n => ?_
      refine Parse.yields_bind (Parse.statementsFrom_confined (Parse.statement_confined _ _ false) _ _ n [] rfl) ?_
      exact fun _ hstmts => Parse.yields_then fun _ => Parse.yields_pure hstmts
    exact hprogram _ _ _ hrun
  · cases h

end DeskScript
