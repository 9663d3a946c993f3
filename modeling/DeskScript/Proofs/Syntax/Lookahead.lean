import DeskScript.Proofs.Syntax.Abreast

set_option autoImplicit false

/-!
# How far a parser looks ahead

A parser of expressions that succeeds has looked at no token beyond the one behind what it passed. So two token lists
that agree up to that token are read alike, whatever comes later. Two parsers are joint at a fork of two token lists if
the second one follows the first wherever the first one stays on the shared tokens.
-/

namespace DeskScript

open Token

/-- Two token lists that begin alike: what follows the shared tokens in either of them. `last` is the index of the last
token of the first one. -/
structure Fork where
  last : Nat
  more₁ : List Token
  more₂ : List Token

namespace Fork

variable {F : Fork} {c₁ c₂ : Cursor}

structure Together (F : Fork) (c₁ c₂ : Cursor) : Prop where
  index : c₂.index = c₁.index
  previous : c₂.previous = c₁.previous
  here : c₂.here = c₁.here
  rest : ∃ ts, c₁.rest = ts ++ F.more₁ ∧ c₂.rest = ts ++ F.more₂
  ends : c₁.Ends
  place : c₁.index + c₁.ahead = F.last

namespace Together

theorem within (h : F.Together c₁ c₂) : F.more₁.length ≤ c₁.ahead := by
  obtain ⟨ts, hrest, -⟩ := h.rest
  simp [Cursor.ahead, hrest]

theorem ahead_eq (h : F.Together c₁ c₂) : c₁.ahead + F.more₂.length = c₂.ahead + F.more₁.length := by
  obtain ⟨ts, h₁, h₂⟩ := h.rest
  simp only [Cursor.ahead, h₁, h₂, List.length_append]
  omega

theorem spanFrom (h : F.Together c₁ c₂) (start : Token) : c₂.spanFrom start = c₁.spanFrom start := by
  unfold Cursor.spanFrom
  rw [h.previous]

/-- Behind a shared token there is another one, or the shared tokens are over. -/
theorem cases (h : F.Together c₁ c₂) (hinner : c₁.here.isFinish = false) :
    (F.Together c₁.next c₂.next ∧ c₁.next.ahead < c₁.ahead ∧ c₂.following = c₁.following) ∨
      c₁.next.Ends ∧ c₁.next.ahead < F.more₁.length := by
  have hends : c₁.next.Ends := h.ends.passed (h.ends.next_tokens hinner)
  have htokens := congrArg List.length (h.ends.next_tokens hinner)
  have hplace := h.place
  simp only [Cursor.tokens, List.length_append, List.length_cons, List.length_nil] at htokens
  obtain ⟨ts, h₁, h₂⟩ := h.rest
  cases ts with
  | nil =>
    refine .inr ⟨hends, ?_⟩
    rw [h₁, List.nil_append] at htokens
    unfold Cursor.ahead
    omega
  | cons t ts =>
    have hnext {c : Cursor} {more : List Token} (hhere : c.here.isFinish = false) (hrest : c.rest = t :: ts ++ more) :
        c.next = { c with index := c.index + 1, previous := c.here, here := t, rest := ts ++ more } := by
      unfold Cursor.next
      simp [hrest, hhere]
    have hnext₁ := hnext hinner h₁
    have hnext₂ := hnext (by rw [h.here, hinner]) h₂
    have hlt : c₁.next.ahead < c₁.ahead := by
      unfold Cursor.ahead
      omega
    refine .inl ⟨⟨?_, ?_, ?_, ⟨ts, ?_, ?_⟩, hends, ?_⟩, hlt, ?_⟩
    · rw [hnext₁, hnext₂, h.index]
    · rw [hnext₁, hnext₂, h.here]
    · rw [hnext₁, hnext₂]
    · rw [hnext₁]
    · rw [hnext₂]
    · have hindex : c₁.next.index = c₁.index + 1 := by rw [hnext₁]
      unfold Cursor.ahead at hlt hplace ⊢
      omega
    · simp [Cursor.following, h₁, h₂]

end Together

end Fork

namespace Parse

open DeskScript.Expr Passing Fork

variable {α β : Type} {F : Fork} {m : Nat} {c₁ c₂ c₁' c₂' : Cursor} {p q : Parse α} {f g : α → Parse β}

/-- If the first parser succeeds on a shared token, then so does the second one, on the same token with the same
result. -/
structure Joint (F : Fork) (p q : Parse α) (c₁ c₂ : Cursor) : Prop where
  follows : ∀ {a c₁'}, p.run c₁ = .ok (a, c₁') → F.more₁.length ≤ c₁'.ahead →
    ∃ c₂', q.run c₂ = .ok (a, c₂') ∧ F.Together c₁' c₂'

namespace Joint

theorem of_run_eq {p' q' : Parse α} (h : Joint F p' q' c₁' c₂') (hp : p.run c₁ = p'.run c₁')
    (hq : q.run c₂ = q'.run c₂') : Joint F p q c₁ c₂ := by
  refine ⟨fun hrun hle => ?_⟩
  rw [hp] at hrun
  rw [hq]
  exact h.follows hrun hle

theorem of_error {e : SyntaxTrouble} (h : p.run c₁ = .error e) : Joint F p q c₁ c₂ := by
  refine ⟨fun hrun => ?_⟩
  rw [h] at hrun
  contradiction

theorem pure (a : α) (h : F.Together c₁ c₂) : Joint F (Pure.pure a) (Pure.pure a) c₁ c₂ := by
  refine ⟨fun hrun _ => ?_⟩
  cases hrun
  exact ⟨c₂, rfl, h⟩

theorem step {a b : α} (hp : Gives p c₁ a c₁') (hq : Gives q c₂ b c₂') (h : Joint F (f a) (g b) c₁' c₂') :
    Joint F (p >>= f) (q >>= g) c₁ c₂ :=
  h.of_run_eq (run_bind_gives hp) (run_bind_gives hq)

/-- A parser that has left the shared tokens does not come back. -/
theorem beyond [Onward p] (hends : c₁.Ends) (h : c₁.ahead < F.more₁.length) : Joint F p q c₁ c₂ := by
  refine ⟨fun hrun hle => ?_⟩
  have hahead := Onward.ahead_le hends hrun
  omega

theorem through [Onward p] (honward : ∀ a, Onward (f a)) (h : F.Together c₁ c₂) (hp : Joint F p q c₁ c₂)
    (hf : ∀ a c₁' c₂', F.Together c₁' c₂' → p.run c₁ = .ok (a, c₁') → Joint F (f a) (g a) c₁' c₂') :
    Joint F (p >>= f) (q >>= g) c₁ c₂ := by
  refine ⟨fun hrun hle => ?_⟩
  obtain ⟨a, c₁', hfirst, hsecond⟩ := run_bind_ok hrun
  obtain ⟨ts, hts⟩ := Onward.tokens h.ends hfirst
  have hmid := Nat.le_trans hle (Onward.ahead_le (h.ends.passed hts) hsecond)
  obtain ⟨c₂', hfirst', htogether⟩ := hp.follows hfirst hmid
  obtain ⟨c₂'', hsecond', htogether'⟩ := (hf a c₁' c₂' htogether hfirst).follows hsecond hle
  refine ⟨c₂'', ?_, htogether'⟩
  rw [StateT.run_bind, hfirst']
  exact hsecond'

theorem bind [Onward p] [∀ a, Onward (f a)] (h : F.Together c₁ c₂) (hp : Joint F p q c₁ c₂)
    (hf : ∀ a c₁' c₂', F.Together c₁' c₂' → c₁'.ahead ≤ c₁.ahead → Joint F (f a) (g a) c₁' c₂') :
    Joint F (p >>= f) (q >>= g) c₁ c₂ :=
  through inferInstance h hp fun a c₁' c₂' h' hrun => hf a c₁' c₂' h' (Onward.ahead_le h.ends hrun)

theorem built (start : Token) (k : Span → β) (h : F.Together c₁ c₂) :
    Joint F (do return k (← Parse.spanFrom start)) (do return k (← Parse.spanFrom start)) c₁ c₂ := by
  refine step (gives_spanFrom start c₁) (gives_spanFrom start c₂) ?_
  rw [h.spanFrom]
  exact pure _ h

theorem map [Onward p] (h : F.Together c₁ c₂) (hp : Joint F p q c₁ c₂) (k : α → β) :
    Joint F (k <$> p) (k <$> q) c₁ c₂ := by
  rw [map_eq_pure_bind, map_eq_pure_bind]
  exact bind h hp fun a _ _ h' _ => pure (k a) h'

/-- A parser that passes a token leaves the shared tokens from the last one of them. -/
theorem inner {P : List Token → Prop} (h : F.Together c₁ c₂) (hinner : c₁.here.isFinish = false)
    (hp : Passing p c₁ (Filled P))
    (hjoint : F.Together c₁.next c₂.next → c₁.next.ahead < c₁.ahead → c₂.following = c₁.following →
      Joint F p q c₁ c₂) : Joint F p q c₁ c₂ := by
  rcases h.cases hinner with ⟨hnext, hlt, hfollowing⟩ | ⟨hends, hlt⟩
  · exact hjoint hnext hlt hfollowing
  · refine ⟨fun hrun hle => ?_⟩
    have hahead := hp.ahead_lt h.ends hrun
    have htokens := congrArg List.length (h.ends.next_tokens hinner)
    simp only [Cursor.tokens, List.length_append, List.length_cons, List.length_nil] at htokens
    unfold Cursor.ahead at *
    omega

/-- Behind a token that is shared or the first one beyond. -/
theorem next [Onward p] (h : F.Together c₁ c₂) (hinner : c₁.here.isFinish = false)
    (hjoint : F.Together c₁.next c₂.next → c₁.next.ahead < c₁.ahead → Joint F p q c₁.next c₂.next) :
    Joint F p q c₁.next c₂.next := by
  rcases h.cases hinner with ⟨hnext, hlt, -⟩ | ⟨hends, hlt⟩
  · exact hjoint hnext hlt
  · exact beyond hends hlt

section

variable {test : Token → Bool} (htest : ∀ t, test t = true → t.isFinish = false)

theorem at_ {f g : Bool → Parse β} (h : F.Together c₁ c₂)
    (htrue : test c₁.here = true → Joint F (f true) (g true) c₁ c₂)
    (hfalse : test c₁.here = false → Joint F (f false) (g false) c₁ c₂) :
    Joint F (Parse.at_ test >>= f) (Parse.at_ test >>= g) c₁ c₂ := by
  refine step (gives_at test c₁) (gives_at test c₂) ?_
  rw [h.here]
  cases hhere : test c₁.here with
  | true => exact htrue hhere
  | false => exact hfalse hhere

include htest

theorem accept {f g : Bool → Parse β} [Onward (f true)] (h : F.Together c₁ c₂)
    (htrue : F.Together c₁.next c₂.next → c₁.next.ahead < c₁.ahead → Joint F (f true) (g true) c₁.next c₂.next)
    (hfalse : Joint F (f false) (g false) c₁ c₂) :
    Joint F (Parse.accept test >>= f) (Parse.accept test >>= g) c₁ c₂ := by
  have hsame := congrArg test h.here
  cases hhere : test c₁.here with
  | true => exact step (gives_accept hhere) (gives_accept (hsame.trans hhere)) (next h (htest _ hhere) htrue)
  | false => exact step (gives_accept_not hhere) (gives_accept_not (hsame.trans hhere)) hfalse

theorem consume {what : String} {f g : Token → Parse β} [Onward (f c₁.here)] (h : F.Together c₁ c₂)
    (htrue : F.Together c₁.next c₂.next → c₁.next.ahead < c₁.ahead →
      Joint F (f c₁.here) (g c₁.here) c₁.next c₂.next) :
    Joint F (Parse.consume test what >>= f) (Parse.consume test what >>= g) c₁ c₂ := by
  have hsame := congrArg test h.here
  cases hhere : test c₁.here with
  | true =>
    refine step (gives_consume what hhere) (gives_consume what (hsame.trans hhere)) ?_
    rw [h.here]
    exact next h (htest _ hhere) htrue
  | false =>
    refine ⟨fun hrun => ?_⟩
    obtain ⟨t, c', hfirst, -⟩ := run_bind_ok hrun
    unfold Parse.consume at hfirst
    rw [run_bind_gives (gives_at test c₁), hhere, if_neg Bool.false_ne_true] at hfirst
    cases hfirst

end

/-- A loop each round of which passes a token, with rounds enough for the tokens ahead. -/
theorem loop {σ : Type} {p q : Nat → σ → Parse α}
    (hround : ∀ {n₁ n₂ s c₁ c₂}, F.Together c₁ c₂ → c₁.ahead < m →
      (∀ {s' c₁' c₂'}, F.Together c₁' c₂' → c₁'.ahead < c₁.ahead → Joint F (p n₁ s') (q n₂ s') c₁' c₂') →
      Joint F (p (n₁ + 1) s) (q (n₂ + 1) s) c₁ c₂)
    {n₁ n₂ : Nat} {s : σ} (h : F.Together c₁ c₂) (hm : c₁.ahead < m) (hn₁ : c₁.ahead < n₁) (hn₂ : c₂.ahead < n₂) :
    Joint F (p n₁ s) (q n₂ s) c₁ c₂ := by
  induction n₁ generalizing n₂ s c₁ c₂ with
  | zero => omega
  | succ n₁ ih =>
    obtain ⟨n₂, rfl⟩ : ∃ n, n₂ = n + 1 := ⟨n₂ - 1, by omega⟩
    refine hround h hm fun h' hlt => ?_
    have hahead := h.ahead_eq
    have hahead' := h'.ahead_eq
    exact ih h' (by omega) (by omega) (by omega)

end Joint

theorem isFinish_of_symbol {s : Symbol} (t : Token) (h : t.hasSymbol s = true) : t.isFinish = false :=
  isFinish_eq_false ((hasSymbol_iff t s).1 h)

theorem passing_symbol {c : Cursor} {s : Symbol} (h : c.here.hasSymbol s = true) : Passing advance c Sound := by
  refine ⟨fun hc _ _ hrun => ?_, fun _ _ hrun => by cases hrun⟩
  cases hrun
  exact ⟨[c.here], hc.next_tokens (isFinish_of_symbol _ h), by simp [Sound, isFault, (hasSymbol_iff _ _).1 h]⟩

instance (s : Symbol) : Onward (acceptSymbol s) := by
  refine ⟨fun {c} => look (gives_at _ c) ?_⟩
  split
  · rename_i h
    exact seq (passing_symbol h) fun _ _ => .pure true
  · exact .pure false

instance (s : Symbol) (what : String) : Onward (consumeSymbol s what) := by
  refine ⟨fun {c} => look (gives_at _ c) ?_⟩
  split
  · rename_i h
    exact passing_symbol h
  · exact passing_expected what

theorem joint_skipWhile {test : Token → Bool} (htest : ∀ t, test t = true → t.isFinish = false ∧ Even [t])
    {n₁ n₂ : Nat} (h : F.Together c₁ c₂) (hn₁ : c₁.ahead < n₁) (hn₂ : c₂.ahead < n₂) :
    Joint F (skipWhile test n₁) (skipWhile test n₂) c₁ c₂ := by
  have honward (n : Nat) : Onward (skipWhile test n) := ⟨(passing_skipWhile htest n).sound⟩
  refine .loop (p := fun n (_ : Unit) => skipWhile test n) (q := fun n _ => skipWhile test n) (s := ())
    (fun h _ hagain => ?_) h (Nat.lt_succ_self _) hn₁ hn₂
  unfold skipWhile
  exact .accept (fun t ht => (htest t ht).1) h (fun hnext hlt => @hagain () _ _ hnext hlt) (.pure () h)

theorem joint_skipNewlines (h : F.Together c₁ c₂) : Joint F skipNewlines skipNewlines c₁ c₂ := by
  refine .step (gives_rounds c₁) (gives_rounds c₂) ?_
  refine joint_skipWhile (fun t ht => ?_) h (Nat.lt_succ_self _) (Nat.lt_succ_self _)
  have hnewline : t.content = .newline := by
    split at ht <;> simp_all
  exact ⟨by simp [isFinish, hnewline], .newline hnewline⟩

end Parse

end DeskScript
