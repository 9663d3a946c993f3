import DeskScript.Proofs.Syntax.PassingStatement
import DeskScript.Proofs.Token.Tiling

set_option autoImplicit false

/-!
# Lexical errors surface

A script that parses has been passed from its first token to its last, so none of its tokens is malformed. One that does
not parse fails at a token with nothing malformed before it.
-/

namespace DeskScript

def Token.isTerminator (t : Token) : Bool := t.content matches .newline || t.hasSymbol .semicolon

namespace Parse

open Token Passing

variable {c c' : Cursor}

theorem safe_terminator {t : Token} (h : t.isTerminator = true) : t.isFinish = false ∧ Safe [t] := by
  rcases Bool.or_eq_true_iff.1 h with h | h
  · have hnewline : t.content = .newline := by
      split at h <;> simp_all
    exact ⟨by simp [isFinish, hnewline], (Even.newline hnewline).toSafe⟩
  · have hplain := isPlain_of_symbol h (by simp) (by simp)
    exact ⟨isFinish_of_plain hplain, (Sealed.single hplain).toSafe⟩

theorem passing_skipTerminators : Passing skipTerminators c Safe :=
  look (gives_rounds c) (passing_skipWhile (fun _ => safe_terminator) _)

theorem passing_endStatement : Passing endStatement c Safe := by
  have hadvance (h : c.here.isFinish = false) (hsafe : Safe [c.here]) : Passing (do let _ ← advance) c Safe := by
    refine seq ⟨fun hc _ _ hrun => ?_, fun _ _ hrun => by cases hrun⟩ fun _ _ => .pure ()
    cases hrun
    exact ⟨[c.here], hc.next_tokens h, hsafe⟩
  unfold endStatement
  refine look (gives_get c) ?_
  split <;> rename_i hhere
  · exact hadvance (by simp [isFinish, hhere]) (Even.newline hhere).toSafe
  · exact hadvance (by simp [isFinish, hhere]) (Sealed.single (by simp [isPlain, hhere])).toSafe
  · exact .pure ()
  · exact .pure ()
  · split
    · exact .pure ()
    · exact passing_expected _

section

variable {statement : Parse Stmt} {endStatement : Parse Unit} {stops : Parse Bool} (hstatement : Clausal statement)
  (hend : ∀ {c}, Passing endStatement c Safe) (hstops : ∀ {c}, Passing stops c (· = []))
include hstatement hend hstops

theorem passing_statementsFrom (n : Nat) (done : List Stmt) :
    Passing (statementsFrom statement endStatement stops n done) c Safe := by
  induction n generalizing c done with
  | zero => exact .pure _
  | succ n ih =>
    unfold statementsFrom
    refine seq passing_skipTerminators fun _ _ => seq (hstops.mono ?_) fun _ _ => ?_
    · rintro _ rfl
      exact Safe.nil
    · split
      · exact .pure _
      · exact seq hstatement.unfilled fun _ _ => seq hend fun _ _ => ih _

end

def closes : Parse Bool := do
  if ← at_ (·.hasSymbol .rightBrace) then return true
  else if ← at_ (·.isFinish) then expected "'\x7d'"
  else return false

theorem block_eq (statement : Parse Stmt) : block statement = (do
    skipNewlines
    let start ← consumeSymbol .leftBrace "'\x7b'"
    let statements ← statementsFrom statement endStatement closes (← rounds) []
    let _ ← consumeSymbol .rightBrace "'\x7d'"
    return ⟨← spanFrom start, statements⟩) := rfl

theorem passing_closes : Passing closes c (· = []) := by
  refine look (gives_at _ c) ?_
  split
  · exact .pure true
  · refine look (gives_at _ c) ?_
    split
    · exact passing_expected _
    · exact .pure false

theorem passing_block {statement : Parse Stmt} (hstatement : Clausal statement) : Clausal (block statement) := by
  intro c
  unfold block
  refine last (passing_skipNewlines.mono fun _ h => h.toSafe) fun _ c' => ?_
  have hopen : Passing (consumeSymbol .leftBrace "'\x7b'") c' fun ts => ∃ t, ts = [t] ∧
      t.content = .symbol .leftBrace := by
    unfold consumeSymbol consume
    refine of_run_eq (q := if c'.here.hasSymbol .leftBrace then advance else expected "'\x7b'") ?_ rfl
    split
    · rename_i h
      exact passing_openBrace ((hasSymbol_iff _ _).1 h)
    · exact passing_expected _
  refine braced hopen (fun _ c' => look (gives_rounds c') ?_) Safe.enclosed
  refine closing (passing_statementsFrom hstatement passing_endStatement passing_closes _ _) fun _ _ => ?_
  exact closed (passing_closeBrace _) fun _ c' => look (gives_spanFrom _ c') (.pure _)

/-- Statements pass their tokens in order, however deep they may be nested. -/
theorem clausal_statement (m n : Nat) (inLoop : Bool) : Clausal (statement (nested m) n inLoop) := by
  induction n generalizing inLoop with
  | zero => exact passing_expected _
  | succ n ih => exact passing_statementOf ⟨phrasal_nested m, fun inner => passing_block (ih inner), ih inLoop⟩ inLoop

theorem passing_program (lines : Array String) : Passing (program lines) c Safe := by
  unfold program
  refine look (gives_here c) (look (gives_rounds c) ?_)
  refine seq (passing_statementsFrom (clausal_statement _ _ _) passing_endStatement ?_ _ _) fun _ c' => ?_
  · intro c
    exact look (gives_here c) (.pure _)
  · exact look (gives_spanFrom _ c') (.pure _)

theorem ahead_of_tokens {ts : List Token} (h : c.tokens = ts ++ c'.tokens) : c.ahead = ts.length + c'.ahead := by
  have hlength := congrArg List.length h
  simp only [Cursor.tokens, List.length_cons, List.length_append] at hlength
  unfold Cursor.ahead
  omega

/-- Every round passes a statement, so the rounds do not run out before the last token. -/
theorem statementsFrom_finishes {statement : Parse Stmt} (hstatement : Clausal statement) {n : Nat} {done : List Stmt}
    (hc : c.Ends) (hn : c.ahead < n) {ss : List Stmt}
    (hrun : (statementsFrom statement endStatement (at_ (·.isFinish)) n done).run c = .ok (ss, c')) :
    c'.here.isFinish = true := by
  induction n generalizing c done with
  | zero => omega
  | succ n ih =>
    unfold statementsFrom at hrun
    obtain ⟨_, c₁, hskip, hrun⟩ := run_bind_ok hrun
    obtain ⟨ts, hts, -⟩ := passing_skipTerminators.passes hc hskip
    rw [run_bind_gives (gives_at _ c₁)] at hrun
    cases hfinish : c₁.here.isFinish with
    | true =>
      rw [hfinish, if_pos rfl] at hrun
      cases hrun
      exact hfinish
    | false =>
      rw [hfinish, if_neg Bool.false_ne_true] at hrun
      obtain ⟨s, c₂, hone, hrun⟩ := run_bind_ok hrun
      obtain ⟨_, c₃, hend, hrun⟩ := run_bind_ok hrun
      have hc₁ := hc.passed hts
      obtain ⟨us, hus, hne, -⟩ := hstatement.passes hc₁ hone
      have hc₂ := hc₁.passed hus
      obtain ⟨vs, hvs, -⟩ := passing_endStatement.passes hc₂ hend
      have hpositive := List.length_pos_of_ne_nil hne
      have h₁ := ahead_of_tokens hts
      have h₂ := ahead_of_tokens hus
      have h₃ := ahead_of_tokens hvs
      exact ih (hc₂.passed hvs) (by omega) hrun

theorem program_finishes {lines : Array String} {p : Program} (hc : c.Ends)
    (hrun : (program lines).run c = .ok (p, c')) : c'.here.isFinish = true := by
  unfold program at hrun
  rw [run_bind_gives (gives_here c), run_bind_gives (gives_rounds c)] at hrun
  obtain ⟨ss, c₁, hss, hrun⟩ := run_bind_ok hrun
  rw [run_bind_gives (gives_spanFrom _ c₁)] at hrun
  cases hrun
  exact statementsFrom_finishes (clausal_statement _ _ _) hc (Nat.lt_succ_self _) hss

end Parse

theorem Cursor.ofTokens_tokens (source : Option String) {ts : List Token} (h : ts ≠ []) :
    (Cursor.ofTokens source ts).tokens = ts := by
  cases ts with
  | nil => contradiction
  | cons t ts => rfl

section

variable {given : Option String} {ts body : List Token} {last : Token}

theorem program_passes {p : Program} (hts : ts = body ++ [last]) (hlast : last.isFinish = true)
    (hbody : ∀ t ∈ body, t.isFinish = false) (h : parseTokens ts given = .ok p) : Token.Safe body := by
  have hne : ts ≠ [] := by simp [hts]
  have htokens := Cursor.ofTokens_tokens given hne
  have hc : (Cursor.ofTokens given ts).Ends := ⟨body, last, by rw [htokens, hts], hlast⟩
  unfold parseTokens at h
  dsimp only at h
  split at h
  · rename_i c' hrun
    obtain ⟨passed, hpassed, hsafe⟩ := (Parse.passing_program _).passes hc hrun
    have hfinish := Parse.program_finishes hc hrun
    rw [htokens, hts] at hpassed
    -- the `finish` token reached is the only one
    rcases List.append_eq_append_iff.1 hpassed with ⟨as, rfl, has⟩ | ⟨as, rfl, has⟩
    · cases as with
      | nil => simpa using hsafe
      | cons a as => simp [Cursor.tokens] at has
    · cases as with
      | nil => simpa using hsafe
      | cons a as =>
        obtain ⟨rfl, -⟩ := List.cons.inj has
        rw [hbody _ (by simp)] at hfinish
        contradiction
  · contradiction

/-- An error stands at a token with nothing malformed before it. -/
theorem program_blames {e : ScriptError} (hts : ts = body ++ [last]) (hlast : last.isFinish = true)
    (h : parseTokens ts given = .error e) : ∃ trouble : SyntaxTrouble, e.cause = trouble.cause ∧
      e.span = some trouble.span ∧ (Cursor.ofTokens given ts).Blames trouble := by
  have hc : (Cursor.ofTokens given ts).Ends := by
    refine ⟨body, last, ?_, hlast⟩
    rw [Cursor.ofTokens_tokens given (by simp [hts]), hts]
  unfold parseTokens at h
  dsimp only at h
  split at h
  · contradiction
  · rename_i trouble hrun
    cases h
    exact ⟨trouble, rfl, rfl, (Parse.passing_program _).blames hc hrun⟩

end

theorem Cause.lexical_of_code {cause : Cause} (hsyntactic : cause.category = .syntactic) (hcode : cause.code = "E001") :
    ∃ f, cause = .lexical f := by
  cases cause <;> simp_all [Cause.category, Cause.code]

/-- A script that parses has no malformed token. An error of one that does not stands at a token with nothing malformed
before it, and one with the code of lexical errors tells in its message what is malformed there. -/
theorem lexical_errors_surface (source : String) (file given : Option String) :
    match parseTokens (tokenize source file) given with
    | .ok _ => ∀ t ∈ tokenize source file, t.isFault = false
    | .error e => e.cause.category = .syntactic ∧ ∃ before t after, tokenize source file = before ++ t :: after ∧
        (∀ u ∈ before, u.isFault = false) ∧ e.span = some t.span ∧
        (e.diagnostic.code = "E001" → ∃ f, t.content = .fault f ∧ e.message = f.message) := by
  obtain ⟨body, last, hts, hlast, -, -, hbody⟩ := (Token.scanAll_tilesFrom file [] 0 source.toList).ends
  change tokenize source file = body ++ [last] at hts
  split
  · rename_i p hp
    have hsafe := program_passes hts hlast hbody hp
    intro t ht
    rw [hts, List.mem_append, List.mem_singleton] at ht
    rcases ht with ht | rfl
    · exact hsafe.sound t ht
    · unfold Token.isFinish at hlast
      unfold Token.isFault
      split at hlast <;> simp_all
  · rename_i e he
    obtain ⟨trouble, hcause, hspan, hblames⟩ := program_blames hts hlast he
    obtain ⟨before, t, after, htokens, hsound, hplace, hlexical⟩ := hblames.place
    rw [Cursor.ofTokens_tokens given (by simp [hts])] at htokens
    refine ⟨hcause ▸ hblames.syntactic, before, t, after, htokens, hsound, by rw [hspan, hplace], fun hcode => ?_⟩
    obtain ⟨f, hf⟩ := Cause.lexical_of_code (hcause ▸ hblames.syntactic) hcode
    refine ⟨f, hlexical f (hcause ▸ hf), ?_⟩
    unfold ScriptError.message
    rw [hf]
    rfl

end DeskScript
