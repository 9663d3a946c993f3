import DeskScript.Proofs.Syntax.PassingExpression
import DeskScript.Syntax.Statement

set_option autoImplicit false

/-!
# What the parsers of statements pass

A statement passes at least one token, and never a closing brace that was not opened. Where a parser goes back to where
it was and reads again, what it passes is what the second reading passes.
-/

namespace DeskScript

namespace Parse

open Token Passing

variable {α β : Type} {c : Cursor}

def Clausal (p : Parse α) : Prop := ∀ {c : Cursor}, Passing p c (Filled Safe)

theorem Passing.safe {p : Parse α} (h : Passing p c Sealed) : Passing p c Safe := h.mono fun _ hts => hts.toSafe

theorem Passing.filled_safe {p : Parse α} (h : Passing p c (Filled Sealed)) : Passing p c Safe := h.toSafe.unfilled

/-- Behind a first parser either one goes on, or one goes back and tries another way. -/
theorem Passing.retry {P Q R : List Token → Prop} {p : Parse α} {f : α → Parse β} {q : Parse β} (hp : Passing p c P)
    (hf : ∀ a c', Passing (f a) c' Q ∨ (f a).run c' = q.run c) (hq : Passing q c R)
    (hsound : ∀ ts, P ts → ∀ t ∈ ts, t.isFault = false) (happend : ∀ ts us, P ts → Q us → R (ts ++ us)) :
    Passing (p >>= f) c R := by
  constructor
  · intro hc b c'' hrun
    obtain ⟨a, c', hfirst, hsecond⟩ := run_bind_ok hrun
    obtain ⟨ts, hts, hP⟩ := hp.passes hc hfirst
    rcases hf a c' with hon | hback
    · obtain ⟨us, hus, hQ⟩ := hon.passes (hc.passed hts) hsecond
      exact ⟨ts ++ us, by rw [hts, hus, List.append_assoc], happend ts us hP hQ⟩
    · exact hq.passes hc (hback.symm.trans hsecond)
  · intro hc e hrun
    rcases run_bind_error hrun with hfirst | ⟨a, c', hfirst, hsecond⟩
    · exact hp.blames hc hfirst
    · obtain ⟨ts, hts, hP⟩ := hp.passes hc hfirst
      rcases hf a c' with hon | hback
      · exact (hon.blames (hc.passed hts) hsecond).earlier hts (hsound ts hP)
      · exact hq.blames hc (hback.symm.trans hsecond)

section

variable {stops : Token → Bool} (hstops : ∀ t, stops t = false → t.endsStatement = false)
include hstops

theorem passing_skipMessage (n : Nat) (lexemes : List String) : Passing (skipMessage stops n lexemes) c Safe := by
  induction n generalizing c lexemes with
  | zero => exact .pure lexemes
  | succ n ih =>
    unfold skipMessage
    refine look (gives_here c) ?_
    split
    · exact .pure lexemes
    · rename_i hgo
      split
      · exact passing_expected _
      · rename_i hsound
        have hon := hstops c.here (by simpa using hgo)
        refine seq ⟨fun hc _ _ hrun => ?_, fun _ _ hrun => by cases hrun⟩ fun _ _ => ih _
        cases hrun
        unfold endsStatement at hon
        refine ⟨[c.here], hc.next_tokens ?_, .single (by simpa using hsound) ?_⟩
        · unfold isFinish
          split at hon <;> simp_all
        · unfold brace
          split at hon <;> split <;> simp_all

/-- A message passes what its expression passes, or raw tokens up to one that stops it. -/
theorem passing_message {expression : Parse Expr} (hexpression : Phrasal expression) :
    Passing (message expression stops) c Safe := by
  unfold message
  refine look (gives_here c) ?_
  split
  · exact .pure _
  · refine look (gives_get c) ?_
    dsimp only
    split
    · rename_i e c' hwhole
      have hrun : expression.run c = .ok (e, c') := by
        split at hwhole <;> simp_all
      refine ⟨fun hc _ _ h => ?_, fun _ _ h => by cases h⟩
      cases h
      exact hexpression.filled_safe.passes hc hrun
    · refine look (gives_rounds c) (seq (passing_skipMessage hstops _ _) fun _ c' => ?_)
      exact look (gives_spanFrom _ c') (.pure _)

end

theorem passing_targetFrom {expression : Parse Expr} (hexpression : Phrasal expression) (start : Token) (n : Nat)
    (target : Target) : Passing (targetFrom expression start n target) c Sealed := by
  induction n generalizing c target with
  | zero => exact .pure target
  | succ n ih =>
    unfold targetFrom
    refine seq (passing_accessor? hexpression) fun _ c' => ?_
    split
    · exact .pure target
    · exact look (gives_spanFrom _ c') (ih _)

theorem passing_target {expression : Parse Expr} (hexpression : Phrasal expression) (allowBare : Bool) :
    Phrasal (target expression allowBare) := by
  intro c
  have hrest (name : String) (hhere : c.here.isPlain = true) : Passing (do
      let _ ← advance
      targetFrom expression c.here (← rounds) (.var c.here.span name)) c (Filled Sealed) :=
    first (passing_advance hhere) fun _ c' => look (gives_rounds c') (passing_targetFrom hexpression _ _ _)
  have hfail {f : String → Parse Target} : Passing (failAt c.here .invalidTarget >>= f) c (Filled Sealed) :=
    (passing_failAt rfl (by simp)).of_run_eq rfl
  unfold target
  refine look (gives_here c) ?_
  split <;> rename_i hhere
  · exact hrest _ (by simp [isPlain, hhere])
  · split
    · exact hrest _ (by simp [isPlain, hhere])
    · exact hfail
  · exact hfail

theorem passing_variableName (what : String) : Passing (variableName what) c (Filled Sealed) := by
  unfold variableName
  refine look (gives_here c) ?_
  split
  · rename_i hhere
    exact first (passing_advance (by simp [isPlain, hhere])) fun _ _ => .pure _
  · exact passing_expected _

theorem passing_plainName (what : String) : Passing (plainName what) c (Filled Sealed) := by
  unfold plainName
  refine first (passing_consume (fun t h => ?_) what) fun _ _ => .pure _
  unfold isPlain
  split <;> simp_all

theorem passing_parameter : Passing parameter c (Filled Sealed) := by
  unfold parameter
  refine look (gives_here c) ?_
  split
  · rename_i hhere
    exact first (passing_advance (by simp [isPlain, hhere])) fun _ _ => .pure _
  · exact passing_plainName _

theorem passing_parametersFrom (n : Nat) (done : List String) : Passing (parametersFrom n done) c Sealed := by
  induction n generalizing c done with
  | zero => exact .pure _
  | succ n ih =>
    unfold parametersFrom
    refine seq (passing_acceptSymbol (by simp) (by simp)) fun _ _ => ?_
    split
    · exact seq passing_parameter.unfilled fun _ _ => ih _
    · exact .pure _

theorem passing_parameters : Passing parameters c Sealed := by
  have hclose {params : List String} {c : Cursor} : Passing (do
      let _ ← consumeSymbol .rightParen "')'"
      return params) c Sealed :=
    seq (passing_consumeSymbol (by simp) (by simp) _).unfilled fun _ _ => .pure _
  unfold parameters
  refine seq (passing_acceptSymbol (by simp) (by simp)) fun _ c' => ?_
  split
  · refine look (gives_at _ c') ?_
    split
    · exact hclose
    · refine seq passing_parameter.unfilled fun _ c' => look (gives_rounds c') ?_
      exact seq (passing_parametersFrom _ _) fun _ _ => hclose
  · exact .pure _

theorem passing_intoVariable : Passing intoVariable c Sealed :=
  seq (passing_consumeKeyword _ _).unfilled fun _ _ => (passing_variableName _).unfilled

/-- Outside of a loop the error stands at the word itself, which has been passed. -/
theorem passing_controlStatement (hhere : c.here.isPlain = true) (inLoop : Bool) (build : Span → Stmt) :
    Passing (controlStatement inLoop build) c (Filled Safe) := by
  unfold controlStatement
  cases inLoop with
  | true => exact first (passing_advance hhere).toSafe fun _ _ => .pure _
  | false =>
    have hfail : Passing (failAt c.here (.outsideLoop c.here.lexeme) : Parse Stmt) c (Filled Safe) :=
      passing_failAt rfl (by simp)
    exact hfail.of_run_eq rfl

structure Parts.Clausal (p : Parts) : Prop where
  nested : p.nested.Phrasal
  body : ∀ inLoop, Parse.Clausal (p.body inLoop)
  statement : Parse.Clausal p.statement

section

variable {p : Parts} (hp : p.Clausal)
include hp

theorem passing_expressionStatement : Phrasal (expressionStatement p) := by
  intro c
  unfold expressionStatement
  exact look (gives_here c) (first hp.nested.expression fun _ c' => look (gives_spanFrom _ c') (.pure _))

theorem passing_setStatement (hhere : c.here.isPlain = true) : Passing (setStatement p) c (Filled Sealed) := by
  unfold setStatement
  refine first (passing_advance hhere) fun _ _ => seq (passing_target hp.nested.expression true).unfilled fun _ _ => ?_
  refine seq (passing_consumeSymbol (by simp) (by simp) _).unfilled fun _ _ => ?_
  exact seq hp.nested.expression.unfilled fun _ c' => look (gives_spanFrom _ c') (.pure _)

/-- Without `=` behind a target, the target is read again as an expression. -/
theorem passing_variableStatement : Phrasal (variableStatement p) := by
  intro c
  unfold variableStatement
  refine look (gives_here c) (look (gives_get c) ?_)
  refine retry (passing_target hp.nested.expression false) (fun _ c' => ?_) (passing_expressionStatement hp)
    (fun _ h => Closed.sound h.2) fun _ _ ht hu => ⟨by simp [ht.1], Closed.append ht.2 hu⟩
  cases hassign : c'.here.hasSymbol .assign with
  | true =>
    have hplain := isPlain_of_symbol hassign (by simp) (by simp)
    refine .inl (of_run_eq (seq (passing_advance hplain).unfilled fun _ _ => ?_) (run_accept hassign _))
    exact seq hp.nested.expression.unfilled fun _ c' => look (gives_spanFrom _ c') (.pure _)
  | false => exact .inr ((run_accept_not hassign _).trans rfl)

/-- Line ends behind a block are passed if `else` follows them, and otherwise left to be read again. -/
theorem passing_branchStatement (inLoop : Bool) (hhere : c.here.isPlain = true) :
    Passing (branchStatement p inLoop) c (Filled Safe) := by
  unfold branchStatement
  refine first (passing_advance hhere).toSafe fun start _ => seq hp.nested.expression.filled_safe fun condition _ => ?_
  refine seq (passing_acceptKeyword _).safe fun _ _ => ?_
  refine seq (hp.body inLoop).unfilled fun thenBlock c' => look (gives_get c') ?_
  have hfinish (elseBlock : Option (Block Stmt)) {c : Cursor} :
      Passing (do return Stmt.branch (← spanFrom start) condition thenBlock elseBlock) c Safe :=
    look (gives_spanFrom _ c) (.pure _)
  refine retry (passing_skipNewlines.mono fun _ h => h.toSafe) (fun _ c'' => ?_) (hfinish none)
    (fun _ => Closed.sound) fun _ _ => Closed.append
  cases helse : c''.here.hasKeyword .elseWord with
  | true =>
    have hplain := isPlain_of_keyword ((hasKeyword_iff _ _).1 helse)
    refine .inl (of_run_eq (seq (passing_advance hplain).filled_safe fun _ c' => ?_) (run_accept helse _))
    refine look (gives_at _ c') ?_
    split
    · exact seq hp.statement.unfilled fun _ _ => seq (.pure _) fun _ _ => hfinish _
    · exact seq ((hp.body inLoop).unfilled.map _) fun _ _ => hfinish _
  | false => exact .inr ((run_accept_not helse _).trans rfl)

theorem passing_conditionalLoop (start : Token) : Passing (conditionalLoop p start) c (Filled Safe) := by
  unfold conditionalLoop
  refine first hp.nested.expression.toSafe fun _ _ => seq (hp.body true).unfilled fun _ c' => ?_
  exact look (gives_spanFrom _ c') (.pure _)

theorem passing_loopStatement (hhere : c.here.isPlain = true) : Passing (loopStatement p) c (Filled Safe) := by
  unfold loopStatement
  refine first (passing_advance hhere).toSafe fun _ _ => seq (passing_acceptKeyword _).safe fun _ _ => ?_
  split
  · exact (passing_conditionalLoop hp _).unfilled
  · refine seq hp.nested.expression.filled_safe fun _ _ => seq (hp.body true).unfilled fun _ c' => ?_
    exact look (gives_spanFrom _ c') (.pure _)

theorem passing_foreachStatement (hhere : c.here.isPlain = true) :
    Passing (foreachStatement p) c (Filled Safe) := by
  unfold foreachStatement
  refine first (passing_advance hhere).toSafe fun start _ => ?_
  refine seq (passing_variableName _).filled_safe fun item _ => ?_
  have hrest (index : Option String) {c : Cursor} : Passing (do
      let _ ← consumeKeyword .inWord "'in'"
      let iterable ← p.expression
      let body ← p.body true
      return Stmt.foreach (← spanFrom start) item iterable body index) c Safe := by
    refine seq (passing_consumeKeyword _ _).filled_safe fun _ _ => seq hp.nested.expression.filled_safe fun _ _ => ?_
    exact seq (hp.body true).unfilled fun _ c' => look (gives_spanFrom _ c') (.pure _)
  refine seq (passing_acceptSymbol (by simp) (by simp)).safe fun _ _ => ?_
  split
  · exact seq ((passing_variableName _).filled_safe.map _) fun _ _ => hrest _
  · exact seq (.pure none) fun _ _ => hrest _

theorem passing_returnStatement (hhere : c.here.isPlain = true) : Passing (returnStatement p) c (Filled Safe) := by
  unfold returnStatement
  refine first (passing_advance hhere).toSafe fun start c' => look (gives_at _ c') ?_
  split
  · exact seq (.pure _) fun _ c' => look (gives_spanFrom _ c') (.pure _)
  · exact seq (hp.nested.expression.filled_safe.map _) fun _ c' => look (gives_spanFrom _ c') (.pure _)

theorem passing_defineStatement (hhere : c.here.isPlain = true) : Passing (defineStatement p) c (Filled Safe) := by
  unfold defineStatement
  refine first (passing_advance hhere).toSafe fun _ _ => seq (passing_plainName _).filled_safe fun _ _ => ?_
  refine seq passing_parameters.safe fun _ _ => seq (hp.body false).unfilled fun _ c' => ?_
  exact look (gives_spanFrom _ c') (.pure _)

theorem passing_attemptStatement (inLoop : Bool) (hhere : c.here.isPlain = true) :
    Passing (attemptStatement p inLoop) c (Filled Safe) := by
  unfold attemptStatement
  refine first (passing_advance hhere).toSafe fun start _ => seq (hp.body inLoop).unfilled fun tryBlock _ => ?_
  refine seq (passing_skipNewlines.mono fun _ h => h.toSafe) fun _ _ => ?_
  refine seq (passing_consumeKeyword _ _).filled_safe fun _ c' => look (gives_here c') ?_
  have hrest (errorVar : Option String) {c : Cursor} : Passing (do
      let catchBlock ← p.body inLoop
      return Stmt.attempt (← spanFrom start) tryBlock catchBlock errorVar) c Safe :=
    seq (hp.body inLoop).unfilled fun _ c' => look (gives_spanFrom _ c') (.pure _)
  split
  · rename_i hvar
    refine seq (passing_advance (by simp [isPlain, hvar])).filled_safe fun _ _ => ?_
    exact seq (.pure _) fun _ _ => hrest _
  · exact seq (.pure none) fun _ _ => hrest _

theorem passing_onStatement (hhere : c.here.isPlain = true) : Passing (onStatement p) c (Filled Safe) := by
  unfold onStatement
  refine first (passing_advance hhere).toSafe fun _ _ => ?_
  refine seq (passing_word hp.nested.expression _).filled_safe fun _ _ => seq (hp.body false).unfilled fun _ c' => ?_
  exact look (gives_spanFrom _ c') (.pure _)

theorem passing_keyValuesFrom (n : Nat) (done : List (String × Expr)) : Passing (keyValuesFrom p n done) c Sealed := by
  induction n generalizing c done with
  | zero => exact .pure _
  | succ n ih =>
    have hrest (key : Token) (value : Expr) {c : Cursor} : Passing (do
        let _ ← acceptSymbol .comma
        keyValuesFrom p n ((key.lexeme, value) :: done)) c Sealed :=
      seq (passing_acceptSymbol (by simp) (by simp)) fun _ _ => ih _
    unfold keyValuesFrom
    refine look (gives_here c) ?_
    split
    · exact .pure _
    · split
      · rename_i hname
        refine seq (passing_advance (isPlain_of_nameLike hname)).unfilled fun _ _ => ?_
        refine seq (passing_consumeSymbol (by simp) (by simp) _).unfilled fun _ c' => ?_
        obtain ⟨b, hb, -⟩ := gives_atBareWord c'
        refine look hb ?_
        split
        · exact seq (passing_word hp.nested.expression _).unfilled fun _ _ => hrest _ _
        · exact seq hp.nested.expression.unfilled fun _ _ => hrest _ _
      · exact passing_expected _

theorem passing_keyValues : Passing (keyValues p) c Sealed := by
  unfold keyValues
  refine look (gives_here c) (look (gives_rounds c) ?_)
  exact seq (passing_keyValuesFrom hp _ _) fun _ c' => look (gives_spanFrom _ c') (.pure _)

theorem passing_emitStatement (hhere : c.here.isPlain = true) : Passing (emitStatement p) c (Filled Safe) := by
  unfold emitStatement
  refine first (passing_advance hhere).toSafe fun start _ => ?_
  refine seq (passing_word hp.nested.expression _).filled_safe fun event c' => look (gives_get c') ?_
  have hrest (payload : Option Expr) {c : Cursor} :
      Passing (do return Stmt.emit (← spanFrom start) event payload) c Safe :=
    look (gives_spanFrom _ c) (.pure _)
  split
  · exact seq ((passing_keyValues hp).safe.map _) fun _ _ => hrest _
  · split
    · exact seq (.pure none) fun _ _ => hrest _
    · exact seq (hp.nested.expression.filled_safe.map _) fun _ _ => hrest _

theorem passing_messageUntil (words : List Keyword) : Passing (messageUntil p words) c Safe :=
  passing_message (fun t h => by simpa using (Bool.or_eq_false_iff.1 h).1) hp.nested.expression

theorem passing_command {k : Keyword} {operands : Parse (Command Expr)} (h : command? p k = some operands) :
    Passing operands c Safe := by
  have hword {what : String} {c : Cursor} : Passing (word p.expression what) c Safe :=
    (passing_word hp.nested.expression what).filled_safe
  unfold command? at h
  split at h
  all_goals cases h
  · exact seq (passing_messageUntil hp _) fun _ _ => .pure _
  · exact seq (passing_messageUntil hp _) fun _ _ => .pure _
  · exact seq (passing_messageUntil hp _) fun _ _ => seq passing_intoVariable.safe fun _ _ => .pure _
  · refine seq (passing_messageUntil hp _) fun _ _ => seq (passing_acceptKeyword _).safe fun _ _ => ?_
    split
    · refine seq ((passing_messageUntil hp _).map _) fun _ _ => ?_
      exact seq passing_intoVariable.safe fun _ _ => .pure _
    · exact seq (.pure none) fun _ _ => seq passing_intoVariable.safe fun _ _ => .pure _
  · refine seq (passing_messageUntil hp _) fun _ _ => seq (passing_consumeKeyword _ _).filled_safe fun _ _ => ?_
    exact seq hword fun _ _ => .pure _
  · exact seq hword fun _ _ => seq passing_intoVariable.safe fun _ _ => .pure _
  · exact seq hword fun _ _ => .pure _
  · exact seq hword fun _ _ => .pure _
  · refine seq hword fun _ _ => seq (passing_acceptKeyword _).safe fun _ _ => ?_
    split
    · exact seq ((passing_keyValues hp).safe.map _) fun _ _ => .pure _
    · exact .pure _
  · refine look (gives_at _ c) ?_
    split
    · exact .pure _
    · exact seq hword fun _ _ => .pure _
  · refine look (gives_at _ c) ?_
    split
    · exact .pure _
    · exact seq hp.nested.expression.filled_safe fun _ _ => .pure _
  · exact seq hword fun _ _ => .pure _
  · exact seq hword fun _ _ => .pure _
  · exact seq hword fun _ _ => .pure _
  · exact seq hword fun _ _ => .pure _

theorem passing_otherCommand (hhere : c.here.isPlain = true) : Passing (otherCommand p) c (Filled Safe) := by
  unfold otherCommand
  refine first (passing_advance hhere).toSafe fun _ c' => look (gives_rounds c') ?_
  refine seq (passing_wordPartsFrom _ _).safe fun _ _ => seq (passing_spacedArguments hp.nested).safe fun _ c' => ?_
  exact look (gives_spanFrom _ c') (.pure _)

theorem passing_statementOf (inLoop : Bool) : Clausal (statementOf p inLoop) := by
  intro c
  have hargument : Passing (if beginsArgument c.here then expressionStatement p else expected "statement") c
      (Filled Safe) := by
    split
    · exact (passing_expressionStatement hp).toSafe
    · exact passing_expected _
  unfold statementOf
  refine look (gives_here c) ?_
  split <;> rename_i hhere
  all_goals try have hplain : c.here.isPlain = true := by simp [isPlain, hhere]
  · exact (passing_variableStatement hp).toSafe
  · exact (passing_setStatement hp hplain).toSafe
  · refine first (passing_advance hplain).toSafe fun _ c' => look (gives_spanFrom _ c') ?_
    exact seq (passing_messageUntil hp _) fun _ _ => .pure _
  · exact passing_branchStatement hp inLoop hplain
  · exact passing_loopStatement hp hplain
  · exact first (passing_advance hplain).toSafe fun _ _ => (passing_conditionalLoop hp _).unfilled
  · exact passing_foreachStatement hp hplain
  · exact passing_controlStatement hplain inLoop _
  · exact passing_controlStatement hplain inLoop _
  · exact passing_returnStatement hp hplain
  · exact passing_defineStatement hp hplain
  · exact passing_attemptStatement hp inLoop hplain
  · exact passing_onStatement hp hplain
  · exact passing_emitStatement hp hplain
  · exact (passing_expressionStatement hp).toSafe
  · split
    · rename_i operands hcommand
      refine first (passing_advance hplain).toSafe fun _ _ => seq (passing_command hp hcommand) fun _ c' => ?_
      exact look (gives_spanFrom _ c') (.pure _)
    · exact hargument
  · obtain ⟨b, hb, -⟩ := gives_atBareWord c
    refine look hb ?_
    split
    · exact passing_otherCommand hp hplain
    · exact (passing_expressionStatement hp).toSafe
  · exact hargument

end

end Parse

end DeskScript
