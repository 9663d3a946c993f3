import DeskScript.Proofs.Syntax.AbreastBlock
import DeskScript.Proofs.Token.Lines

set_option autoImplicit false

/-!
# One script after another

Two scripts joined by a line end form a script whose statements are those of the first followed by those of the second,
if the first leaves no bracket open. The parser of the whole text runs in tandem with that of the first text up to the
line end, and from there in tandem with that of the second.
-/

namespace DeskScript

open Token

namespace Parse

section

variable {statement : Parse Stmt} {stops : Parse Bool} {n : Nat} {done : List Stmt} {c : Cursor}

theorem skipTerminators_eq : skipTerminators = (do skipWhile isTerminator (← rounds)) := rfl

/-- Terminators in front of a statement are passed one by one. -/
theorem statementsFrom_terminator (hc : c.Ends) (h : c.here.isTerminator = true) :
    (statementsFrom statement endStatement stops (n + 1) done).run c =
      (statementsFrom statement endStatement stops (n + 1) done).run c.next := by
  have hahead := ahead_of_tokens (hc.next_tokens (safe_terminator h).1)
  rw [List.length_singleton, Nat.add_comm] at hahead
  have hskip : skipTerminators.run c = skipTerminators.run c.next := by
    rw [skipTerminators_eq, run_bind_gives (gives_rounds c), run_bind_gives (gives_rounds c.next), hahead, skipWhile,
      run_bind_gives (gives_accept h)]
    rfl
  unfold statementsFrom
  rw [StateT.run_bind, StateT.run_bind, hskip]

theorem statementsFrom_finish (hc : c.here.isFinish = true) :
    (statementsFrom statement endStatement (at_ (·.isFinish)) n done).run c = .ok (done.reverse, c) := by
  cases n with
  | zero => rfl
  | succ n =>
    unfold statementsFrom
    rw [run_bind_gives (gives_skipTerminators hc), run_bind_gives (gives_at _ c), hc, if_pos rfl]
    rfl

theorem statementsFrom_statement (hterminator : c.here.isTerminator = false) (hfinish : c.here.isFinish = false) :
    (statementsFrom statement endStatement (at_ (·.isFinish)) (n + 1) done).run c = (do
      let s ← statement
      endStatement
      statementsFrom statement endStatement (at_ (·.isFinish)) n (s :: done) : Parse (List Stmt)).run c := by
  have hskip : Gives skipTerminators c () c :=
    (run_bind_gives (gives_rounds c)).trans (run_bind_gives (gives_accept_not hterminator))
  rw [statementsFrom, run_bind_gives hskip, run_bind_gives (gives_at _ c), hfinish, if_neg Bool.false_ne_true]

end

/-- In the second source, behind the line end that ends the text, or at the end of the source. -/
structure Behind (S : Excerpt) (c : Cursor) : Prop where
  source : c.source = some (S.before₂ ++ S.text ++ S.after₂)
  newline : S.border₂.content = .newline → c.tokens = S.more₂
  finish : S.border₂.content = .finish → c.here = S.border₂

theorem next_source (c : Cursor) : c.next.source = c.source := by
  unfold Cursor.next
  split
  · rfl
  · split <;> rfl

/-- Where the second source goes on, the statement before it ends, and nothing is read in between. -/
theorem goes_behind {S : Excerpt} {c₁ c₂ : Cursor} (h : S.Beside c₁ c₂) (hhere : c₂.here = S.border₂)
    (hrest : c₂.rest = S.more₂) :
    ∃ c, Behind S c ∧ c.ahead ≤ c₂.ahead ∧ Gives endStatement c₂ () c ∧
      ∀ (statement : Parse Stmt) (stops : Parse Bool) n done,
        (statementsFrom statement endStatement stops (n + 1) done).run c₂ =
          (statementsFrom statement endStatement stops (n + 1) done).run c := by
  rcases S.borders₂ with hborder | ⟨hborder, -⟩
  · have hnewline : c₂.here.content = .newline := by rw [hhere, hborder]
    have hterminator : c₂.here.isTerminator = true := by simp [isTerminator, hnewline]
    have htokens := h.swap.ends.next_tokens (safe_terminator hterminator).1
    refine ⟨c₂.next, ⟨(next_source c₂).trans h.source₂, fun _ => ?_, fun hfinish => ?_⟩, c₂.next_ahead_le, ?_,
      fun _ _ _ _ => statementsFrom_terminator h.swap.ends hterminator⟩
    · rw [← hrest]
      exact (List.cons.inj htokens).2.symm
    · rw [hborder] at hfinish
      contradiction
    · unfold endStatement
      refine gives_bind (gives_get c₂) ?_
      rw [hnewline]
      exact gives_bind (gives_advance c₂) (gives_pure () _)
  · refine ⟨c₂, ⟨h.source₂, fun hnewline => ?_, fun _ => hhere⟩, Nat.le_refl _, ?_, fun _ _ _ _ => rfl⟩
    · rw [hborder] at hnewline
      contradiction
    · unfold endStatement
      refine gives_bind (gives_get c₂) ?_
      rw [hhere, hborder]
      exact gives_pure () c₂

/-- A parser at `c₂` comes behind the text, and goes on there with the statements `ss` and those before. -/
def ComesBehind (S : Excerpt) (statement : Parse Stmt) (before ss : List Stmt) (c₂ : Cursor) (p : Parse (List Stmt)) :
    Prop :=
  ∃ n done c, Behind S c ∧ c.ahead ≤ c₂.ahead ∧ c.ahead < n ∧
    done.map Stmt.unplaced = (ss.map Stmt.unplaced).reverse ++ before ∧
    p.run c₂ = (statementsFrom statement endStatement (at_ (·.isFinish)) n done).run c

theorem ComesBehind.earlier {S : Excerpt} {statement : Parse Stmt} {before ss : List Stmt} {c d : Cursor}
    {p q : Parse (List Stmt)} (h : ComesBehind S statement before ss d p) (hle : d.ahead ≤ c.ahead)
    (hrun : q.run c = p.run d) : ComesBehind S statement before ss c q := by
  obtain ⟨n, done, c', hbehind, hle', hn, hss, hc⟩ := h
  exact ⟨n, done, c', hbehind, Nat.le_trans hle' hle, hn, hss, hrun.trans hc⟩

section

variable {S : Excerpt} (hS : S.Whole) {statement₁ statement₂ : Parse Stmt} {m n₁ n₂ : Nat}
  {before done₁ done₂ ss : List Stmt} {c₁ c₂ c₁' : Cursor}
include hS

theorem border_finish (hhere : c₁.here = S.border₁) : c₁.here.isFinish = true := by
  rw [hhere, isFinish_iff, hS.finish]

theorem statementsFrom_behind (hdone : done₂.map Stmt.unplaced = done₁.map Stmt.unplaced ++ before)
    (h : S.Beside c₁ c₂) (hhere₁ : c₁.here = S.border₁) (hhere₂ : c₂.here = S.border₂) (hrest₂ : c₂.rest = S.more₂)
    (hn₂ : c₂.ahead < n₂)
    (hrun : (statementsFrom statement₁ endStatement (at_ (·.isFinish)) n₁ done₁).run c₁ = .ok (ss, c₁')) :
    ComesBehind S statement₂ before ss c₂ (statementsFrom statement₂ endStatement (at_ (·.isFinish)) n₂ done₂) := by
  obtain ⟨n₂, rfl⟩ : ∃ n, n₂ = n + 1 := ⟨n₂ - 1, by omega⟩
  rw [statementsFrom_finish (border_finish hS hhere₁)] at hrun
  cases hrun
  obtain ⟨c, hbehind, hle, -, hc⟩ := goes_behind h hhere₂ hrest₂
  refine ⟨n₂ + 1, done₂, c, hbehind, hle, by omega, ?_, hc _ _ _ _⟩
  rw [hdone, List.map_reverse, List.reverse_reverse]

theorem endStatement_behind (hdone : done₂.map Stmt.unplaced = done₁.map Stmt.unplaced ++ before)
    (h : S.Beside c₁ c₂) (hhere₁ : c₁.here = S.border₁) (hhere₂ : c₂.here = S.border₂) (hrest₂ : c₂.rest = S.more₂)
    (hn₂ : c₂.ahead < n₂)
    (hrun : (do
      endStatement
      statementsFrom statement₁ endStatement (at_ (·.isFinish)) n₁ done₁ : Parse (List Stmt)).run c₁ = .ok (ss, c₁')) :
    ComesBehind S statement₂ before ss c₂ (do
      endStatement
      statementsFrom statement₂ endStatement (at_ (·.isFinish)) n₂ done₂) := by
  obtain ⟨c, hbehind, hle, hend₂, -⟩ := goes_behind h hhere₂ hrest₂
  have hend₁ : Gives endStatement c₁ () c₁ := by
    unfold endStatement
    refine gives_bind (gives_get c₁) ?_
    rw [hhere₁, hS.finish]
    exact gives_pure () c₁
  rw [run_bind_gives hend₁, statementsFrom_finish (border_finish hS hhere₁)] at hrun
  cases hrun
  refine ⟨n₂, done₂, c, hbehind, hle, by omega, ?_, run_bind_gives hend₂⟩
  rw [hdone, List.map_reverse, List.reverse_reverse]

/-- Where the first parser comes to the end of its source, the second one has read the same statements and goes on
behind the text. -/
theorem statementsFrom_beside (hclausal : Clausal statement₁)
    (hstatement : ∀ {d₁ d₂}, S.Beside d₁ d₂ → d₁.ahead < m → Tandem S 0 statement₁ statement₂ d₁ d₂ Stmt.Same)
    (hdone : done₂.map Stmt.unplaced = done₁.map Stmt.unplaced ++ before) (h : S.Beside c₁ c₂) (hm : c₁.ahead < m)
    (hn₁ : c₁.ahead < n₁) (hn₂ : c₂.ahead < n₂)
    (hrun : (statementsFrom statement₁ endStatement (at_ (·.isFinish)) n₁ done₁).run c₁ = .ok (ss, c₁')) :
    ComesBehind S statement₂ before ss c₂ (statementsFrom statement₂ endStatement (at_ (·.isFinish)) n₂ done₂) := by
  have halone : S.more₁.length = 0 := by rw [hS.alone, List.length_nil]
  -- on the tokens of the text that are still ahead: a terminator takes one, a statement some
  induction hk : c₁.ahead using Nat.strongRecOn generalizing c₁ c₂ n₁ n₂ done₁ done₂ with
  | _ k ih =>
    rcases h.cases with ⟨halike, hnext, hlt, -, -⟩ | ⟨hhere₁, -, hhere₂, hrest₂⟩
    case inr => exact statementsFrom_behind hS hdone h hhere₁ hhere₂ hrest₂ hn₂ hrun
    obtain ⟨n₁, rfl⟩ : ∃ n, n₁ = n + 1 := ⟨n₁ - 1, by omega⟩
    obtain ⟨n₂, rfl⟩ : ∃ n, n₂ = n + 1 := ⟨n₂ - 1, by omega⟩
    have hahead := h.ahead_eq
    have hahead' := hnext.ahead_eq
    have hterm₂ : c₂.here.isTerminator = c₁.here.isTerminator := isTerminator_congr halike.content
    cases hterm : c₁.here.isTerminator with
    | true =>
      rw [statementsFrom_terminator h.ends hterm] at hrun
      have hn₂' : c₂.next.ahead < n₂ + 1 := by omega
      refine ComesBehind.earlier ?_ c₂.next_ahead_le (statementsFrom_terminator h.swap.ends (hterm₂.trans hterm))
      exact ih c₁.next.ahead (by omega) hdone hnext.toBeside (by omega) (by omega) hn₂' hrun rfl
    | false =>
      have hinner₂ : c₂.here.isFinish = false := by rw [isFinish, halike.content]; exact halike.inner
      rw [statementsFrom_statement hterm halike.inner] at hrun
      obtain ⟨s₁, d₁, hone₁, hrun⟩ := run_bind_ok hrun
      obtain ⟨s₂, d₂, hone₂, hs, hd⟩ := (hstatement h hm).follows hone₁ (by omega)
      have hlt := hclausal.ahead_lt h.ends hone₁
      have hahead := hd.ahead_eq
      have hmore : (s₂ :: done₂).map Stmt.unplaced = (s₁ :: done₁).map Stmt.unplaced ++ before := by
        rw [List.map_cons, List.map_cons, hdone, hs]
        rfl
      refine ComesBehind.earlier ?_ (by omega)
        ((statementsFrom_statement (hterm₂.trans hterm) hinner₂).trans (run_bind_gives hone₂))
      rcases hd.toBeside.cases with ⟨halike, hnext, -⟩ | ⟨hhere₁, -, hhere₂, hrest₂⟩
      · obtain ⟨_, e₁, hend₁, hrun⟩ := run_bind_ok hrun
        obtain ⟨_, e₂, hend₂, -, he⟩ := (tandem_endStatement_inner (k := 0) halike hnext hd).follows hend₁ (by omega)
        have : Onward endStatement := ⟨passing_endStatement.sound⟩
        have hle := Onward.ahead_le hd.toBeside.ends hend₁
        have hahead := he.ahead_eq
        have hn₂' : e₂.ahead < n₂ := by omega
        refine ComesBehind.earlier ?_ (by omega) (run_bind_gives hend₂)
        exact ih e₁.ahead (by omega) hmore he.toBeside (by omega) (by omega) hn₂' hrun rfl
      · exact endStatement_behind hS hmore hd.toBeside hhere₁ hhere₂ hrest₂ (by omega) hrun

end

def script (n : Nat) : Parse (List Stmt) :=
  statementsFrom (statement (nested (n + 1)) (n + 1) false) endStatement (at_ (·.isFinish)) n []

theorem script_of_program {lines : Array String} {c c' : Cursor} {p : Program}
    (h : (program lines).run c = .ok (p, c')) : (script (c.ahead + 1)).run c = .ok (p.statements, c') := by
  unfold program at h
  rw [run_bind_gives (gives_here c), run_bind_gives (gives_rounds c)] at h
  obtain ⟨ss, c₁, hss, h⟩ := run_bind_ok h
  cases h
  exact hss

theorem program_of_script (lines : Array String) {c c' : Cursor} {ss : List Stmt}
    (h : (script (c.ahead + 1)).run c = .ok (ss, c')) :
    ∃ p, (program lines).run c = .ok (p, c') ∧ p.statements = ss := by
  refine ⟨⟨c'.spanFrom c.here, ss, lines⟩, ?_, rfl⟩
  unfold program
  rw [run_bind_gives (gives_here c), run_bind_gives (gives_rounds c)]
  exact run_bind_gives h

theorem statementOf_else {parts : Parts} {inLoop : Bool} {c : Cursor} (h : c.here.content = .keyword .elseWord) :
    ∃ e, (statementOf parts inLoop).run c = .error e := by
  refine ⟨⟨c.complaint "statement", c.here.span⟩, ?_⟩
  unfold statementOf
  rw [run_bind_gives (gives_here c), h]
  simp only [command?, beginsArgument, h]
  rfl

theorem script_not_else {N n : Nat} {inLoop : Bool} {nested : Nested} {done ss : List Stmt} {c c' : Cursor}
    (hc : c.Ends)
    (hrun : (statementsFrom (statement nested (N + 1) inLoop) endStatement (at_ (·.isFinish)) (n + 1) done).run c =
      .ok (ss, c'))
    {ws ts : List Token} {t : Token} (htokens : c.tokens = ws ++ t :: ts) (hws : ∀ w ∈ ws, w.content = .newline) :
    t.hasKeyword .elseWord = false := by
  induction ws generalizing c with
  | nil =>
    obtain ⟨rfl, -⟩ := List.cons.inj htokens
    by_contra helse
    have hcontent := (hasKeyword_iff _ _).1 (Bool.not_eq_false _ ▸ helse)
    rw [statementsFrom_statement (by simp [isTerminator, hcontent, Token.hasSymbol]) (by simp [isFinish, hcontent])]
      at hrun
    obtain ⟨s, d, hone, -⟩ := run_bind_ok hrun
    obtain ⟨e, he⟩ := statementOf_else hcontent
    rw [statement, he] at hone
    contradiction
  | cons w ws ih =>
    obtain ⟨rfl, -⟩ := List.cons.inj htokens
    have hterminator : c.here.isTerminator = true := by simp [isTerminator, hws]
    have hnext := hc.next_tokens (safe_terminator hterminator).1
    rw [statementsFrom_terminator hc hterminator] at hrun
    exact ih (hc.passed hnext) hrun (List.cons.inj (hnext.symm.trans htokens)).2
      fun w hw => hws w (List.mem_cons_of_mem _ hw)

/-- A script read in the first source, and the same text read on in the second one. -/
theorem script_beside {S : Excerpt} (hS : S.Whole) {c₁ c₂ c₁' : Cursor} (h : S.Beside c₁ c₂) {N n : Nat}
    {ss : List Stmt} (done : List Stmt) (hN : c₂.ahead < N) (hn : c₂.ahead < n)
    (hrun : (script (c₁.ahead + 1)).run c₁ = .ok (ss, c₁')) :
    ∃ n' done' c, Behind S c ∧ c.ahead ≤ c₂.ahead ∧ c.ahead < n' ∧
      done'.map Stmt.unplaced = (ss.map Stmt.unplaced).reverse ++ done.map Stmt.unplaced ∧
      (statementsFrom (statement (nested N) N false) endStatement (at_ (·.isFinish)) n done).run c₂ =
        (statementsFrom (statement (nested N) N false) endStatement (at_ (·.isFinish)) n' done').run c := by
  have halone : S.more₁.length = 0 := by rw [hS.alone, List.length_nil]
  have hahead := h.ahead_eq
  refine statementsFrom_beside hS (clausal_statement _ _ _) (fun hd hm => ?_) (by simp) h (Nat.lt_succ_self _)
    (Nat.lt_succ_self _) hn hrun
  exact tandem_statement hS false hd hm (by omega) (by omega) (by omega) (by omega)

end Parse

namespace Token

variable {a : Nat} {ts us : List Token}

theorem Moved.braces (h : List.Forall₂ (Moved a) ts us) : braces us = braces ts := by
  induction h with
  | nil => rfl
  | cons ht _ ih => rw [braces_cons, braces_cons, ih, brace, brace, ht.content]

theorem Moved.safe (hsafe : Safe ts) (h : List.Forall₂ (Moved a) ts us) {vs ws : List Token} (hus : us = vs ++ ws) :
    0 ≤ Token.braces vs := by
  subst hus
  rw [Moved.braces (List.forall₂_take_append ts vs ws (R := Moved a) h)]
  exact hsafe.level _ (List.take_prefix _ _)

theorem Moved.mem {t : Token} (h : List.Forall₂ (Moved a) ts us) (ht : t ∈ ts) :
    ∃ u ∈ us, u.content = t.content := by
  induction h with
  | nil => simp at ht
  | cons hmoved _ ih =>
    rcases List.mem_cons.1 ht with rfl | ht
    · exact ⟨_, List.mem_cons_self, hmoved.content⟩
    · obtain ⟨u, hu, hcontent⟩ := ih ht
      exact ⟨u, List.mem_cons_of_mem _ hu, hcontent⟩

theorem Moved.concat {t : Token} (h : List.Forall₂ (Moved a) (ts ++ [t]) us) :
    ∃ vs u, us = vs ++ [u] ∧ List.Forall₂ (Moved a) ts vs ∧ Moved a t u := by
  have hlast := List.forall₂_drop_append us ts [t] h.flip
  have hfront := List.forall₂_take_append us ts [t] h.flip
  obtain ⟨u, hu, hmoved⟩ : ∃ u, us.drop ts.length = [u] ∧ Moved a t u := by
    cases hdrop : us.drop ts.length with
    | nil => simp [hdrop] at hlast
    | cons u vs =>
      rw [hdrop] at hlast
      cases hlast with
      | cons hu hvs =>
        cases hvs
        exact ⟨u, rfl, hu⟩
  exact ⟨us.take ts.length, u, by rw [← hu, List.take_append_drop], hfront.flip, hmoved⟩

end Token

def Cursor.start (source : String) (file : Option String) : Cursor :=
  Cursor.ofTokens (some source) (tokenize source file)

section

variable {source : String} {file : Option String}

theorem Cursor.start_tokens : (Cursor.start source file).tokens = tokenize source file := by
  obtain ⟨body, last, hts, -⟩ := tokenize_ends source file
  exact ofTokens_tokens _ (by simp [hts])

theorem Cursor.start_ends : (Cursor.start source file).Ends := by
  obtain ⟨body, last, hts, hlast, -⟩ := tokenize_ends source file
  exact ⟨body, last, Cursor.start_tokens.trans hts, hlast⟩

theorem script_of_parse {p : Program} (h : parse source file = .ok p) :
    ∃ c, (Parse.script ((Cursor.start source file).ahead + 1)).run (Cursor.start source file) =
      .ok (p.statements, c) := by
  unfold parse parseTokens at h
  dsimp only at h
  split at h
  · rename_i c hrun
    cases h
    exact ⟨c, Parse.script_of_program hrun⟩
  · contradiction

theorem parse_of_script {ss : List Stmt} {c : Cursor}
    (h : (Parse.script ((Cursor.start source file).ahead + 1)).run (Cursor.start source file) = .ok (ss, c)) :
    ∃ p, parse source file = .ok p ∧ p.statements = ss := by
  obtain ⟨p, hrun, hp⟩ := Parse.program_of_script (sourceLines (some source)) h
  refine ⟨p, ?_, hp⟩
  unfold parse parseTokens
  dsimp only
  rw [show (Parse.program (sourceLines (some source))).run (Cursor.ofTokens (some source) (tokenize source file)) =
    .ok (p, c) from hrun]

end

theorem second_not_else {second : String} {file : Option String} {a : Nat} {p : Program} {after ws ts : List Token}
    {t : Token} (h : parse second file = .ok p) (hmoved : List.Forall₂ (Moved a) (tokenize second file) after)
    (hafter : after = ws ++ t :: ts) (hws : ∀ w ∈ ws, w.content = .newline) : t.hasKeyword .elseWord = false := by
  subst hafter
  have hfront := List.forall₂_take_append _ ws (t :: ts) hmoved
  have hback := List.forall₂_drop_append _ ws (t :: ts) hmoved
  have hsplit := List.take_append_drop ws.length (tokenize second file)
  obtain ⟨c, hrun⟩ := script_of_parse h
  generalize (tokenize second file).drop ws.length = us at hback hsplit
  cases hback with
  | cons ht _ =>
    rw [(Parse.sorts_keyword .elseWord).content ht.content]
    refine Parse.script_not_else Cursor.start_ends hrun (Cursor.start_tokens.trans hsplit.symm) fun w hw => ?_
    obtain ⟨u, hu, hcontent⟩ := Moved.mem hfront hw
    rw [← hcontent, hws u hu]

def Excerpt.leading (text more : List Char) (last border : Token) (after : List Token) (hlast : last.isFinish = true)
    (hborder : border.content = .newline) (hafter : ∃ ts t, after = ts ++ [t] ∧ t.isFinish = true) : Excerpt where
  text := text
  before₁ := []
  before₂ := []
  after₁ := []
  after₂ := '\n' :: more
  border₁ := last
  border₂ := border
  more₁ := []
  more₂ := after
  borders₁ := .inr ⟨(isFinish_iff last).1 hlast, rfl⟩
  borders₂ := .inl hborder
  ends₁ := ⟨[], last, rfl, hlast⟩
  ends₂ := by
    obtain ⟨ts, t, hts, ht⟩ := hafter
    exact ⟨border :: ts, t, by rw [hts]; rfl, ht⟩

def Excerpt.trailing (before text : List Char) (last₁ last₂ : Token) (h₁ : last₁.isFinish = true)
    (h₂ : last₂.isFinish = true) : Excerpt where
  text := text
  before₁ := []
  before₂ := before
  after₁ := []
  after₂ := []
  border₁ := last₁
  border₂ := last₂
  more₁ := []
  more₂ := []
  borders₁ := .inr ⟨(isFinish_iff last₁).1 h₁, rfl⟩
  borders₂ := .inr ⟨(isFinish_iff last₂).1 h₂, rfl⟩
  ends₁ := ⟨[], last₁, rfl, h₁⟩
  ends₂ := ⟨[], last₂, rfl, h₂⟩

theorem Excerpt.trailing_whole {before text : List Char} {last₁ last₂ : Token} {h₁ : last₁.isFinish = true}
    {h₂ : last₂.isFinish = true} : (trailing before text last₁ last₂ h₁ h₂).Whole := by
  refine ⟨(isFinish_iff last₁).1 h₁, fun ws ts h hts => ?_, fun ws t ts h => ?_⟩
  · simp [trailing, hts] at h
  · simp [trailing] at h

section

variable {first second : String} {file : Option String} {body₂ after : List Token} {last₁ last₂ border : Token}
  (hlast₁ : last₁.isFinish = true) (hborder : border.content = .newline) {p₂ : Program}
  (hend : ∃ ts t, after = ts ++ [t] ∧ t.isFinish = true)

/-- The second script closes no brace that it did not open, and does not begin with `else`. -/
theorem Excerpt.leading_whole {a : Nat} (hts : tokenize second file = body₂ ++ [last₂]) (hsafe : Safe body₂)
    (h : parse second file = .ok p₂) (hmoved : List.Forall₂ (Moved a) (tokenize second file) after) :
    (leading first.toList second.toList last₁ border after hlast₁ hborder hend).Whole := by
  refine ⟨(isFinish_iff last₁).1 hlast₁, fun ws ts hsplit hne => ?_, fun ws t ts hsplit hws => ?_⟩
  · rw [hts] at hmoved
    obtain ⟨us, u, hus, hbody, -⟩ := Moved.concat hmoved
    have hafter : us ++ [u] = ws ++ ts := hus.symm.trans hsplit
    obtain ⟨vs, hvs⟩ : ∃ vs, us = ws ++ vs := by
      rcases List.append_eq_append_iff.1 hafter with ⟨as, rfl, has⟩ | ⟨as, has, -⟩
      · cases as with
        | nil => exact ⟨[], by simp⟩
        | cons a as => simp_all
      · exact ⟨as, has⟩
    exact Moved.safe hsafe hbody hvs
  · exact second_not_else h hmoved hsplit hws

theorem Excerpt.leading_beside {body₁ : List Token} (hts : tokenize first file = body₁ ++ [last₁])
    (hinner : ∀ t ∈ body₁, t.isFinish = false)
    (hboth : tokenize (first ++ "\n" ++ second) file = body₁ ++ border :: after) :
    (leading first.toList second.toList last₁ border after hlast₁ hborder hend).Beside (Cursor.start first file)
      (Cursor.start (first ++ "\n" ++ second) file) := by
  refine ⟨?_, ?_, body₁, body₁, Cursor.start_tokens.trans hts, Cursor.start_tokens.trans hboth,
    List.forall₂_same.2 fun t ht => ?_⟩
  · simp [Cursor.start, Cursor.ofTokens, leading]
  · simp [Cursor.start, Cursor.ofTokens, leading]
  · obtain ⟨hstart, hstop⟩ := tokenize_placed first file (t := t) (by simp [hts, ht])
    exact ⟨rfl, rfl, hinner t ht, ⟨_, hstart.inside, (Nat.zero_add _).symm, (Nat.zero_add _).symm⟩,
      ⟨_, hstop.inside, (Nat.zero_add _).symm, (Nat.zero_add _).symm⟩⟩

theorem Excerpt.trailing_beside {before : List Char} {us : List Token} {u : Token} {c : Cursor}
    (hts : tokenize second file = body₂ ++ [last₂]) (hinner : ∀ t ∈ body₂, t.isFinish = false)
    (hlast₂ : last₂.isFinish = true) (hu : u.isFinish = true) (hsource : c.source = some (before ++ second.toList))
    (htokens : c.tokens = us ++ [u]) (hmoved : List.Forall₂ (Moved before.length) body₂ us) :
    (trailing before second.toList last₂ u hlast₂ hu).Beside (Cursor.start second file) c := by
  refine ⟨?_, ?_, body₂, us, Cursor.start_tokens.trans hts, htokens, ?_⟩
  · simp [Cursor.start, Cursor.ofTokens, trailing]
  · simpa [trailing] using hsource
  · have hbody : ∀ t ∈ body₂, t ∈ body₂ := fun _ h => h
    refine ((List.forall₂_and_left _ _).2 ⟨hbody, hmoved⟩).imp fun t v ⟨ht, hv⟩ => ?_
    obtain ⟨hstart, hstop⟩ := tokenize_placed second file (t := t) (by simp [hts, ht])
    exact ⟨hv.content, hv.lexeme, hinner t ht,
      ⟨_, hstart.inside, (Nat.zero_add _).symm, hv.start.trans (Nat.add_comm _ _)⟩,
      ⟨_, hstop.inside, (Nat.zero_add _).symm, hv.stop.trans (Nat.add_comm _ _)⟩⟩

end

/-- The statements of two scripts, one after the other, if the first one leaves no bracket open. -/
theorem parse_lines {first second : String} {file : Option String} {p₁ p₂ : Program}
    (h₁ : parse first file = .ok p₁) (h₂ : parse second file = .ok p₂)
    (hopen : Token.openBrackets 0 (tokenize first file) = 0) :
    ∃ p, parse (first ++ "\n" ++ second) file = .ok p ∧
      p.statements.map Stmt.unplaced = (p₁.statements ++ p₂.statements).map Stmt.unplaced := by
  obtain ⟨body₁, last₁, hts₁, hlast₁, -, -, hbody₁⟩ := tokenize_ends first file
  obtain ⟨body₂, last₂, hts₂, hlast₂, -, -, hbody₂⟩ := tokenize_ends second file
  have hsafe₁ := program_passes hts₁ hlast₁ hbody₁ h₁
  have hsafe₂ := program_passes hts₂ hlast₂ hbody₂ h₂
  have hsound : ∀ t ∈ tokenize first file, t.isFault = false := by
    intro t ht
    rw [hts₁, List.mem_append, List.mem_singleton] at ht
    rcases ht with ht | rfl
    · exact hsafe₁.sound t ht
    · simp [isFault, (isFinish_iff t).1 hlast₁]
  obtain ⟨body, last, after, border, hbody, hborder, hboth, hmoved⟩ := tokenize_line hsound hopen second
  obtain ⟨rfl, hlast⟩ := List.append_inj' (hts₁.symm.trans hbody) rfl
  obtain rfl : last₁ = last := by simpa using hlast
  obtain ⟨us, u, rfl, hbody₂', hu⟩ := Moved.concat (hts₂ ▸ hmoved)
  have hufinish : u.isFinish = true := by rw [isFinish_iff, hu.content, (isFinish_iff last₂).1 hlast₂]
  have hend : ∃ ts t, us ++ [u] = ts ++ [t] ∧ t.isFinish = true := ⟨us, u, rfl, hufinish⟩
  obtain ⟨c₁, hrun₁⟩ := script_of_parse h₁
  obtain ⟨c₂, hrun₂⟩ := script_of_parse h₂
  -- up to the line end
  obtain ⟨n, done, c, hbehind, hle, hn, hdone, hfirst⟩ := Parse.script_beside
    (Excerpt.leading_whole hlast₁ hborder hend hts₂ hsafe₂ h₂ hmoved)
    (Excerpt.leading_beside hlast₁ hborder hend hts₁ hbody₁ hboth) []
    (Nat.lt_succ_of_lt (Nat.lt_succ_self _)) (Nat.lt_succ_self _) hrun₁
  have hsource : c.source = some ((first.toList ++ ['\n']) ++ second.toList) := by
    rw [hbehind.source]
    simp [Excerpt.leading]
  -- from the line end on
  obtain ⟨n', done', c', hbehind', -, -, hdone', hsecond⟩ := Parse.script_beside Excerpt.trailing_whole
    (Excerpt.trailing_beside hts₂ hbody₂ hlast₂ hufinish hsource (hbehind.newline hborder) (by simpa using hbody₂'))
    done (Nat.lt_succ_of_lt (Nat.lt_succ_of_le hle)) hn hrun₂
  have hfinish : c'.here.isFinish = true := by
    rw [hbehind'.finish ((isFinish_iff _).1 hufinish)]
    exact hufinish
  obtain ⟨p, hp, hstatements⟩ :=
    parse_of_script (hfirst.trans (hsecond.trans (Parse.statementsFrom_finish hfinish)))
  refine ⟨p, hp, ?_⟩
  rw [hstatements, List.map_reverse, hdone', hdone]
  simp

def openEndedSource : String := "if $x { print a }\nemit done # now"

theorem parse_lines_openEnded : ∃ p₁ p₂ p, parse openEndedSource none = .ok p₁ ∧ parse "-1" none = .ok p₂ ∧
    Token.openBrackets 0 (tokenize openEndedSource none) = 0 ∧
    parse (openEndedSource ++ "\n" ++ "-1") none = .ok p ∧
    p.statements.map Stmt.unplaced = (p₁.statements ++ p₂.statements).map Stmt.unplaced := by
  obtain ⟨p₁, h₁⟩ := exists_ok (show (parse openEndedSource none).isOk = true by decide +kernel)
  obtain ⟨p₂, h₂⟩ := exists_ok (show (parse "-1" none).isOk = true by decide +kernel)
  have hopen : Token.openBrackets 0 (tokenize openEndedSource none) = 0 := by decide +kernel
  obtain ⟨p, hp, hstatements⟩ := parse_lines h₁ h₂ hopen
  exact ⟨p₁, p₂, p, h₁, h₂, hopen, hp, hstatements⟩

end DeskScript
