import DeskScript.Proofs.Syntax.AbreastExpression
import DeskScript.Proofs.Syntax.PassingStatement

set_option autoImplicit false

/-!
# Messages side by side

Where the first source ends with the text, its parser cannot leave the text, and what comes behind the text in the
second source changes nothing as long as it closes no brace that it does not open and does not begin with `else`: an
expression that went on behind the text would have to close a brace opened in it, and only `else` is looked for behind
line ends.
-/

namespace DeskScript

open Token

/-- The first source ends with the text; in the second no `else` and no brace behind the text belongs to it. -/
structure Excerpt.Whole (S : Excerpt) : Prop where
  finish : S.border₁.content = .finish
  guarded : ∀ ws ts, S.more₂ = ws ++ ts → ts ≠ [] → 0 ≤ braces ws
  parted : ∀ ws t ts, S.more₂ = ws ++ t :: ts → (∀ w ∈ ws, w.content = .newline) → t.hasKeyword .elseWord = false

theorem Excerpt.Whole.alone {S : Excerpt} (hS : S.Whole) : S.more₁ = [] := by
  rcases S.borders₁ with h | ⟨-, h⟩
  · rw [hS.finish] at h
    contradiction
  · exact h

theorem Cursor.Ends.finish {c : Cursor} (h : c.Ends) (hahead : c.ahead = 0) : c.here.isFinish = true := by
  obtain ⟨ts, t, hts, ht⟩ := h
  have hrest : c.rest = [] := List.eq_nil_of_length_eq_zero hahead
  rw [tokens, hrest] at hts
  cases ts with
  | nil =>
    obtain ⟨rfl, -⟩ := List.cons.inj hts
    exact ht
  | cons u us => simp at hts

namespace Parse

open DeskScript.Expr Passing

variable {α β γ δ : Type} {S : Excerpt} {m : Nat} {c₁ c₂ : Cursor} {p : Parse α} {q : Parse β} {f : α → Parse γ}
  {g : β → Parse δ} {R : γ → δ → Prop}

section

variable (hS : S.Whole) {Q : α → β → Prop}
include hS

theorem Tandem.seq [Onward p] (hends : c₁.Ends) (hp : Tandem S 0 p q c₁ c₂ Q)
    (hf : ∀ a b c₁' c₂', Q a b → S.Abreast c₁' c₂' → c₁'.ahead ≤ c₁.ahead → Tandem S 0 (f a) (g b) c₁' c₂' R) :
    Tandem S 0 (p >>= f) (q >>= g) c₁ c₂ R := by
  refine .through hends (fun _ _ _ => ?_) hp fun a b c₁' c₂' ha h hrun => ?_
  · simp [hS.alone]
  · exact hf a b c₁' c₂' ha h (Onward.ahead_le hends hrun)

/-- The first parsers need not be in tandem at the end of the text if the second one fails there. -/
theorem Tandem.behind [Onward p] (hends : c₁.Ends) (hp : Tandem S 1 p q c₁ c₂ Q)
    (hfail : ∀ a c, c.here.isFinish = true → ∃ e, (f a).run c = .error e)
    (hf : ∀ a b c₁' c₂', Q a b → S.Abreast c₁' c₂' → c₁'.ahead ≤ c₁.ahead → Tandem S 0 (f a) (g b) c₁' c₂' R) :
    Tandem S 0 (p >>= f) (q >>= g) c₁ c₂ R := by
  refine .through hends (fun {a c b c'} hc hrun _ => ?_) hp fun a b c₁' c₂' ha h hrun => ?_
  · by_contra hmore
    rw [hS.alone, List.length_nil] at hmore
    obtain ⟨e, he⟩ := hfail a c (hc.finish (by omega))
    rw [he] at hrun
    contradiction
  · exact hf a b c₁' c₂' ha h (Onward.ahead_le hends hrun)

theorem Paired.seq {p q : Parse Expr} {f : Expr → Parse γ} {g : Expr → Parse δ} (hpq : Paired S m p q)
    (h : S.Beside c₁ c₂) (hm : c₁.ahead < m)
    (hf : ∀ a b c₁' c₂', Same a b → S.Abreast c₁' c₂' → c₁'.ahead < c₁.ahead → Tandem S 0 (f a) (g b) c₁' c₂' R) :
    Tandem S 0 (p >>= f) (q >>= g) c₁ c₂ R := by
  have := hpq.onward
  refine .through h.ends (fun _ _ _ => ?_) (hpq.tandem (k := 0) h hm) fun a b c₁' c₂' ha h' hrun => ?_
  · simp [hS.alone]
  · exact hf a b c₁' c₂' ha h' (hpq.phrasal.ahead_lt h.ends hrun)

end

/-- The span from a token of the text to the last one read. -/
theorem level_spanFrom {t₁ t₂ : Token} (ht : S.Alike t₁ t₂) (h : S.Abreast c₁ c₂) :
    S.Level (c₁.spanFrom t₁).start (c₂.spanFrom t₂).start ∧ S.Level (c₁.spanFrom t₁).stop (c₂.spanFrom t₂).stop := by
  refine ⟨ht.start, ?_⟩
  obtain ⟨i, -, hi₁, hi₂⟩ := ht.start
  obtain ⟨j, -, hj₁, hj₂⟩ := h.previous.stop
  unfold Cursor.spanFrom
  by_cases hlt : j < i
  · rw [if_pos (by omega), if_pos (by omega)]
    exact ht.stop
  · rw [if_neg (by omega), if_neg (by omega)]
    exact h.previous.stop

/-- Beyond the text an expression would have to close a brace that was opened in it. -/
theorem no_crossing (hS : S.Whole) {p : Parse Expr} (hp : Phrasal p) (h : S.Beside c₁ c₂) {e : Expr}
    {c : Cursor} (hrun : p.run c₂ = .ok (e, c)) : S.more₂.length ≤ c.ahead := by
  obtain ⟨ts₁, ts₂, -, h₂, -⟩ := h.ahead
  obtain ⟨us, hus, -, hsealed⟩ := hp.passes h.swap.ends hrun
  by_contra hlt
  obtain ⟨ws, rfl, hws⟩ : ∃ ws, us = ts₂ ++ S.border₂ :: ws ∧ S.more₂ = ws ++ c.tokens := by
    have hsplit : us ++ c.tokens = (ts₂ ++ [S.border₂]) ++ S.more₂ := by rw [← hus, h₂, List.append_cons]
    rcases List.append_eq_append_iff.1 hsplit with ⟨as, has, hmore⟩ | ⟨ws, rfl, hmore⟩
    · have hlength := congrArg List.length hmore
      simp only [Cursor.tokens, List.length_append, List.length_cons] at hlength
      unfold Cursor.ahead at hlt
      obtain rfl : as = [] := List.eq_nil_of_length_eq_zero (by omega)
      exact ⟨[], by simpa using has.symm, by simpa using hmore.symm⟩
    · exact ⟨ws, by simp, hmore⟩
  have hnewline : S.border₂.content = .newline := by
    rcases S.borders₂ with hb | ⟨-, hb⟩
    · exact hb
    · simp [hb] at hlt
  have hopen := hsealed.inside ts₂ S.border₂ ws rfl hnewline
  have hclosed := hsealed.closed
  have hguarded := hS.guarded ws c.tokens hws (by simp [Cursor.tokens])
  have hborder : S.border₂.brace = 0 := by simp [brace, hnewline]
  rw [braces_append, braces_cons] at hclosed
  omega

theorem same_rawMessage (s₁ s₂ : Span) (raw : List Char) : Same (rawMessage s₁ raw) (rawMessage s₂ raw) := by
  unfold rawMessage
  dsimp only
  split <;> rfl

theorem run_message_whole {stops : Token → Bool} {expression : Parse Expr} {c c' : Cursor} {e : Expr}
    (hgo : stops c.here = false) (hrun : expression.run c = .ok (e, c')) (hstop : stops c'.here = true) :
    (message expression stops).run c = .ok (e, c') := by
  unfold message
  rw [run_bind_gives (gives_here c), hgo, if_neg Bool.false_ne_true, run_bind_gives (gives_get c)]
  simp only [hrun, hstop, if_true]
  rfl

theorem run_message_raw {stops : Token → Bool} {expression : Parse Expr} {c : Cursor} (hgo : stops c.here = false)
    (hraw : ∀ {e c'}, expression.run c = .ok (e, c') → stops c'.here = false) :
    (message expression stops).run c = (do
      let lexemes ← skipMessage stops (← rounds) []
      let span ← spanFrom c.here
      return rawMessage span (rawText c.source span lexemes.reverse) : Parse Expr).run c := by
  unfold message
  rw [run_bind_gives (gives_here c), hgo, if_neg Bool.false_ne_true, run_bind_gives (gives_get c)]
  cases hrun : expression.run c with
  | error e => rfl
  | ok found =>
    simp only [hraw hrun]
    rfl

section

variable {stops : Token → Bool} (hcontent : ∀ {t u : Token}, u.content = t.content → stops u = stops t)
  (hstops : ∀ t, stops t = false → t.endsStatement = false)
include hcontent hstops

omit hcontent in
theorem stops_border {t : Token} {more : List Token} (ht : t.Borders more) : stops t = true := by
  cases hstop : stops t with
  | true => rfl
  | false =>
    have hon := hstops t hstop
    unfold endsStatement at hon
    rcases ht with ht | ⟨ht, -⟩ <;> simp [ht] at hon

theorem stops_beside (h : S.Beside c₁ c₂) : stops c₂.here = stops c₁.here := by
  rcases h.cases with ⟨halike, -⟩ | ⟨hhere₁, -, hhere₂, -⟩
  · exact hcontent halike.content
  · rw [hhere₁, hhere₂, stops_border hstops S.borders₁, stops_border hstops S.borders₂]

omit hcontent in
theorem cases_of_going (h : S.Beside c₁ c₂) (hgo : stops c₁.here = false) :
    S.Alike c₁.here c₂.here ∧ S.Abreast c₁.next c₂.next ∧ c₁.next.ahead < c₁.ahead := by
  rcases h.cases with ⟨halike, hnext, hlt, -, -⟩ | ⟨hhere₁, -⟩
  · exact ⟨halike, hnext, hlt⟩
  · rw [hhere₁, stops_border hstops S.borders₁] at hgo
    contradiction

theorem tandem_skipMessage {k n₁ n₂ : Nat} (lexemes : List String) (h : S.Beside c₁ c₂) (hgo : stops c₁.here = false)
    (hn₁ : c₁.ahead < n₁) (hn₂ : c₂.ahead < n₂) :
    Tandem S k (skipMessage stops n₁ lexemes) (skipMessage stops n₂ lexemes) c₁ c₂ (· = ·) := by
  induction n₁ generalizing n₂ c₁ c₂ lexemes with
  | zero => omega
  | succ n₁ ih =>
    obtain ⟨n₂, rfl⟩ : ∃ n, n₂ = n + 1 := ⟨n₂ - 1, by omega⟩
    obtain ⟨halike, hnext, hlt⟩ := cases_of_going hstops h hgo
    have hsound : c₂.here.isFault = c₁.here.isFault := by rw [isFault, halike.content, isFault]
    have hahead := h.ahead_eq
    have hahead' := hnext.ahead_eq
    unfold skipMessage
    refine .step (gives_here c₁) (gives_here c₂) ?_
    rw [stops_beside hcontent hstops h, hgo, hsound, halike.lexeme]
    rw [if_neg Bool.false_ne_true, if_neg Bool.false_ne_true]
    split
    · exact .of_error rfl
    · refine .step (gives_advance c₁) (gives_advance c₂) ?_
      cases hstop : stops c₁.next.here with
      | false => exact ih _ hnext.toBeside hstop (by omega) (by omega)
      | true =>
        have hstop' := (stops_beside hcontent hstops hnext.toBeside).trans hstop
        obtain ⟨n₁, rfl⟩ : ∃ n, n₁ = n + 1 := ⟨n₁ - 1, by omega⟩
        obtain ⟨n₂, rfl⟩ : ∃ n, n₂ = n + 1 := ⟨n₂ - 1, by omega⟩
        unfold skipMessage
        refine .step (gives_here _) (gives_here _) ?_
        rw [hstop, hstop', if_pos rfl, if_pos rfl]
        exact .pure rfl hnext

/-- A message is an expression in both sources or in neither, and raw text is quoted alike. -/
theorem tandem_message (hS : S.Whole) {p q : Parse Expr} (hpq : Paired S m p q) {m' : Nat}
    (hqp : Paired S.swap m' q p) (h : S.Abreast c₁ c₂) (hm : c₁.ahead < m) (hm' : c₂.ahead < m') :
    Tandem S 0 (message p stops) (message q stops) c₁ c₂ Same := by
  have hstop := stops_beside hcontent hstops h.toBeside
  cases hgo : stops c₁.here with
  | true =>
    rw [hgo] at hstop
    unfold message
    refine .step (gives_here c₁) (gives_here c₂) ?_
    rw [hgo, hstop, if_pos rfl, if_pos rfl]
    exact .pure rfl h
  | false =>
    rw [hgo] at hstop
    obtain ⟨halike, -⟩ := cases_of_going hstops h.toBeside hgo
    by_cases hwhole : ∃ e c, p.run c₁ = .ok (e, c) ∧ stops c.here = true
    · obtain ⟨e₁, c₁', hrun₁, hstop₁⟩ := hwhole
      obtain ⟨e₂, c₂', hrun₂, hsame, h'⟩ := (hpq.tandem (k := 0) h.toBeside hm).follows hrun₁ (by simp [hS.alone])
      have hstop₂ := (stops_beside hcontent hstops h'.toBeside).trans hstop₁
      exact .of_run_eq (.pure hsame h') (run_message_whole hgo hrun₁ hstop₁) (run_message_whole hstop hrun₂ hstop₂)
    · have hraw₁ {e : Expr} {c : Cursor} (hrun : p.run c₁ = .ok (e, c)) : stops c.here = false := by
        by_contra hstop
        exact hwhole ⟨e, c, hrun, by simpa using hstop⟩
      have hraw₂ {e : Expr} {c : Cursor} (hrun : q.run c₂ = .ok (e, c)) : stops c.here = false := by
        -- otherwise it would have spanned the whole message in the first source, too
        have hwithin := no_crossing hS hqp.phrasal h.toBeside hrun
        obtain ⟨e₁, c₁', hrun₁, -, h'⟩ := (hqp.tandem (k := 0) h.toBeside.swap hm').follows hrun hwithin
        rw [← stops_beside hcontent hstops h'.toBeside]
        exact hraw₁ hrun₁
      refine .of_run_eq ?_ (run_message_raw hgo hraw₁) (run_message_raw hstop hraw₂)
      refine .step (gives_rounds c₁) (gives_rounds c₂) ?_
      have : Onward (skipMessage stops (c₁.ahead + 1) []) := ⟨(passing_skipMessage hstops _ _).sound⟩
      refine .seq hS h.ends
        (tandem_skipMessage hcontent hstops [] h.toBeside hgo (Nat.lt_succ_self _) (Nat.lt_succ_self _)) ?_
      rintro lexemes _ c₁' c₂' rfl h' -
      refine .step (gives_spanFrom _ c₁') (gives_spanFrom _ c₂') (.pure ?_ h')
      obtain ⟨hstart, hend⟩ := level_spanFrom halike h'
      have hraw : rawText c₂.source (c₂'.spanFrom c₂.here) lexemes.reverse =
          rawText c₁.source (c₁'.spanFrom c₁.here) lexemes.reverse := by
        rw [h.source₁, h.source₂]
        exact hstart.between hend
      rw [hraw]
      exact same_rawMessage _ _ _

end

theorem endsStatement_beside (h : S.Beside c₁ c₂) : c₂.here.endsStatement = c₁.here.endsStatement := by
  have hcontent {t u : Token} (h : u.content = t.content) : u.endsStatement = t.endsStatement := by
    unfold Token.endsStatement
    rw [h]
  exact stops_beside hcontent (fun _ h => h) h

theorem tandem_targetFrom {o₁ o₂ : Parse Expr} (ho : Paired S m o₁ o₂) {start₁ start₂ : Token} {n₁ n₂ : Nat}
    {target₁ target₂ : Target} (htarget : target₁.Same target₂) (h : S.Abreast c₁ c₂) (hm : c₁.ahead ≤ m)
    (hn₁ : c₁.ahead < n₁) (hn₂ : c₂.ahead < n₂) (hS : S.Whole) :
    Tandem S 0 (targetFrom o₁ start₁ n₁ target₁) (targetFrom o₂ start₂ n₂ target₂) c₁ c₂ Target.Same := by
  have : Onward (accessor? o₁) := ⟨(passing_accessor? ho.phrasal).sound⟩
  induction n₁ generalizing n₂ c₁ c₂ target₁ target₂ with
  | zero => omega
  | succ n₁ ih =>
    obtain ⟨n₂, rfl⟩ : ∃ n, n₂ = n + 1 := ⟨n₂ - 1, by omega⟩
    unfold targetFrom
    refine .through (j := 0) h.ends (fun _ _ _ => ?_) (tandem_accessor? ho h hm) ?_
    · simp [hS.alone]
    · intro key₁ key₂ c₁' c₂' hkey h' hrun
      cases key₁ <;> cases key₂ <;> simp [SameOption] at hkey
      · exact .pure htarget h'
      · have hlt := accessor?_ahead ho.phrasal h.ends hrun
        have hahead := h.ahead_eq
        have hahead' := h'.ahead_eq
        refine .step (gives_spanFrom _ c₁') (gives_spanFrom _ c₂') ?_
        exact ih (.property _ _ htarget hkey) h' (by omega) (by omega) (by omega)

theorem tandem_target {o₁ o₂ : Parse Expr} (ho : Paired S m o₁ o₂) (allowBare : Bool) (hS : S.Whole)
    (h : S.Beside c₁ c₂) (hm : c₁.ahead ≤ m) :
    Tandem S 0 (target o₁ allowBare) (target o₂ allowBare) c₁ c₂ Target.Same := by
  refine .inner h (passing_target ho.phrasal allowBare) fun halike hnext hlt _ _ => ?_
  have hrest (name : String) : Tandem S 0
      (do let _ ← advance; targetFrom o₁ c₁.here (← rounds) (.var c₁.here.span name))
      (do let _ ← advance; targetFrom o₂ c₂.here (← rounds) (.var c₂.here.span name)) c₁ c₂ Target.Same := by
    refine .step (gives_advance c₁) (gives_advance c₂) (.step (gives_rounds _) (gives_rounds _) ?_)
    exact tandem_targetFrom ho rfl hnext (by omega) (Nat.lt_succ_self _) (Nat.lt_succ_self _) hS
  unfold target
  refine .step (gives_here c₁) (gives_here c₂) ?_
  rw [halike.content, halike.lexeme]
  split
  · exact .step (gives_pure _ c₁) (gives_pure _ c₂) (hrest _)
  · split
    · exact .step (gives_pure _ c₁) (gives_pure _ c₂) (hrest _)
    · exact .of_error rfl
  · exact .of_error rfl

theorem tandem_variableName (what : String) (h : S.Beside c₁ c₂) :
    Tandem S 0 (variableName what) (variableName what) c₁ c₂ (· = ·) := by
  refine .inner h (passing_variableName what) fun halike hnext _ _ _ => ?_
  unfold variableName
  refine .step (gives_here c₁) (gives_here c₂) ?_
  rw [halike.content]
  split
  · exact .step (gives_advance c₁) (gives_advance c₂) (.pure rfl hnext)
  · exact .of_error rfl

theorem sorts_word : Sorts (·.content matches .word) :=
  ⟨fun h => by rw [h], fun h => by simp [h], fun h => by simp [h]⟩

theorem tandem_plainName (what : String) (h : S.Beside c₁ c₂) :
    Tandem S 0 (plainName what) (plainName what) c₁ c₂ (· = ·) := by
  unfold plainName
  refine .consume sorts_word h fun halike hnext _ => ?_
  rw [halike.lexeme]
  exact .pure rfl hnext

theorem tandem_parameter (h : S.Beside c₁ c₂) : Tandem S 0 parameter parameter c₁ c₂ (· = ·) := by
  refine .inner h passing_parameter fun halike hnext _ _ _ => ?_
  unfold parameter
  refine .step (gives_here c₁) (gives_here c₂) ?_
  rw [halike.content]
  split
  · exact .step (gives_advance c₁) (gives_advance c₂) (.pure rfl hnext)
  · exact tandem_plainName _ h

instance : Onward parameter := ⟨passing_parameter.unfilled.sound⟩

instance (what : String) : Onward (variableName what) := ⟨(passing_variableName what).unfilled.sound⟩

instance (what : String) : Onward (plainName what) := ⟨(passing_plainName what).unfilled.sound⟩

instance (n : Nat) (done : List String) : Onward (parametersFrom n done) := ⟨(passing_parametersFrom n done).sound⟩

instance : Onward parameters := ⟨passing_parameters.sound⟩

theorem tandem_parametersFrom (hS : S.Whole) {n₁ n₂ : Nat} (done : List String) (h : S.Abreast c₁ c₂)
    (hn₁ : c₁.ahead < n₁) (hn₂ : c₂.ahead < n₂) :
    Tandem S 0 (parametersFrom n₁ done) (parametersFrom n₂ done) c₁ c₂ (· = ·) := by
  induction n₁ generalizing n₂ c₁ c₂ done with
  | zero => omega
  | succ n₁ ih =>
    obtain ⟨n₂, rfl⟩ : ∃ n, n₂ = n + 1 := ⟨n₂ - 1, by omega⟩
    unfold parametersFrom
    refine .accept (sorts_symbol _) h.toBeside (fun hnext hlt => ?_) (.pure rfl h)
    refine .seq hS hnext.ends (tandem_parameter hnext.toBeside) ?_
    rintro name _ c₁' c₂' rfl h' hle
    have hahead := h.ahead_eq
    have hahead' := h'.ahead_eq
    exact ih _ h' (by omega) (by omega)

theorem tandem_parameters (hS : S.Whole) (h : S.Abreast c₁ c₂) :
    Tandem S 0 parameters parameters c₁ c₂ (· = ·) := by
  unfold parameters
  refine .accept (sorts_symbol _) h.toBeside (fun hnext _ => ?_) (.pure rfl h)
  have hclose (params : List String) {c₁ c₂ : Cursor} (h : S.Abreast c₁ c₂) : Tandem S 0
      (do let _ ← consumeSymbol .rightParen "')'"; return params)
      (do let _ ← consumeSymbol .rightParen "')'"; return params) c₁ c₂ (· = ·) :=
    .consume (sorts_symbol _) h.toBeside fun _ h' _ => .pure rfl h'
  refine .at_ (sorts_symbol _) hnext.toBeside (fun _ => ?_) fun _ => ?_
  · exact .step (gives_pure _ _) (gives_pure _ _) (hclose _ hnext)
  · refine .seq hS hnext.ends (tandem_parameter hnext.toBeside) ?_
    rintro name _ c₁' c₂' rfl h' -
    refine .step (gives_rounds c₁') (gives_rounds c₂') ?_
    refine .seq hS h'.ends (tandem_parametersFrom hS _ h' (Nat.lt_succ_self _) (Nat.lt_succ_self _)) ?_
    rintro params _ c₁'' c₂'' rfl h'' -
    exact hclose _ h''

theorem tandem_intoVariable (h : S.Abreast c₁ c₂) : Tandem S 0 intoVariable intoVariable c₁ c₂ (· = ·) :=
  .consume (sorts_keyword _) h.toBeside fun _ hnext _ => tandem_variableName _ hnext.toBeside

instance : Onward intoVariable := ⟨passing_intoVariable.sound⟩

end Parse

end DeskScript
