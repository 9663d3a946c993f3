import DeskScript.Proofs.Syntax.Giving
import DeskScript.Proofs.Token.Braces

set_option autoImplicit false

/-!
# What a parser passes

A parser that succeeds has passed tokens none of which is malformed, and one that fails does so at a token with nothing
malformed before it. Both are kept when parsers follow one another, whatever property the passed tokens have besides
that is closed under putting lists together. Expressions pass at least one token, with their braces in order and no
line end outside of them.
-/

namespace DeskScript

namespace Token

/-- A property of lists of sound tokens which two lists side by side have if each of them has it. -/
class Closed (P : List Token → Prop) : Prop where
  nil : P []
  append : ∀ {ts us}, P ts → P us → P (ts ++ us)
  sound : ∀ {ts}, P ts → ∀ t ∈ ts, t.isFault = false

instance : Closed (· = []) := ⟨rfl, by rintro _ _ rfl rfl; rfl, by rintro _ rfl; simp⟩

instance : Closed Safe := ⟨.nil, .append, Safe.sound⟩

instance : Closed Even := ⟨.nil, .append, fun h => h.sound⟩

instance : Closed Sealed := ⟨.nil, .append, fun h => h.sound⟩

def Filled (P : List Token → Prop) (ts : List Token) : Prop := ts ≠ [] ∧ P ts

theorem Filled.single {t : Token} (h : t.isPlain = true) : Filled Sealed [t] := ⟨by simp, Sealed.single h⟩

theorem isPlain_of_symbol {t : Token} {s : Symbol} (h : t.hasSymbol s = true) (hl : s ≠ .leftBrace)
    (hr : s ≠ .rightBrace) : t.isPlain = true := by
  rw [Parse.hasSymbol_iff] at h
  unfold isPlain
  split <;> simp_all

theorem isPlain_of_keyword {t : Token} {k : Keyword} (h : t.content = .keyword k) : t.isPlain = true := by
  simp [isPlain, h]

theorem isPlain_of_nameLike {t : Token} (h : t.isNameLike = true) : t.isPlain = true := by
  unfold isNameLike isKeyword at h
  unfold isPlain
  split <;> simp_all

theorem isFinish_of_plain {t : Token} (h : t.isPlain = true) : t.isFinish = false := by
  unfold isPlain at h
  unfold isFinish
  split at h <;> simp_all

end Token

namespace Cursor

variable {c c' : Cursor} {ts : List Token}

def tokens (c : Cursor) : List Token := c.here :: c.rest

def Ends (c : Cursor) : Prop := ∃ ts t, c.tokens = ts ++ [t] ∧ t.isFinish = true

theorem Ends.passed (h : c.Ends) (htokens : c.tokens = ts ++ c'.tokens) : c'.Ends := by
  obtain ⟨us, t, hus, ht⟩ := h
  rw [htokens] at hus
  have hlast := congrArg List.getLast? hus
  rw [List.getLast?_append_of_ne_nil _ (by simp [tokens]), List.getLast?_concat, List.getLast?_eq_some_iff] at hlast
  obtain ⟨vs, hvs⟩ := hlast
  exact ⟨vs, t, hvs, ht⟩

theorem Ends.next_tokens (h : c.Ends) (hhere : c.here.isFinish = false) : c.tokens = [c.here] ++ c.next.tokens := by
  obtain ⟨us, t, hus, ht⟩ := h
  unfold next tokens
  split
  · rename_i hrest
    rw [tokens, hrest] at hus
    obtain rfl : c.here = t := by
      have hlast := congrArg List.getLast? hus
      simpa using hlast
    rw [hhere] at ht
    contradiction
  · rename_i u rest hrest
    rw [hhere, hrest]
    rfl

theorem Ends.next_previous (h : c.Ends) (hhere : c.here.isFinish = false) : c.next.previous = c.here := by
  have hnext := h.next_tokens hhere
  unfold next at hnext ⊢
  cases hrest : c.rest with
  | nil => simp [tokens, hrest] at hnext
  | cons t rest => simp [hhere]

theorem spanFrom_of_le {start : Token} (h : start.span.start.offset ≤ c.previous.span.stop.offset) :
    (c.spanFrom start).start = start.span.start ∧ (c.spanFrom start).stop = c.previous.span.stop := by
  rw [spanFrom, if_neg (Nat.not_lt.2 h)]
  exact ⟨rfl, rfl⟩

/-- What an error says about the tokens ahead: nothing is malformed before the token at which it stands, and a lexical
error names what is malformed there. -/
structure Blames (c : Cursor) (e : SyntaxTrouble) : Prop where
  syntactic : e.cause.category = .syntactic
  place : ∃ ts t more, c.tokens = ts ++ t :: more ∧ (∀ u ∈ ts, u.isFault = false) ∧ e.span = t.span ∧
    ∀ f, e.cause = .lexical f → t.content = .fault f

theorem Blames.at_here {cause : Cause} (hsyntactic : cause.category = .syntactic)
    (hlexical : ∀ f, cause = .lexical f → c.here.content = .fault f) : c.Blames ⟨cause, c.here.span⟩ :=
  ⟨hsyntactic, [], c.here, c.rest, rfl, by simp, rfl, hlexical⟩

theorem Blames.earlier {e : SyntaxTrouble} (h : c'.Blames e) (htokens : c.tokens = ts ++ c'.tokens)
    (hts : ∀ u ∈ ts, u.isFault = false) : c.Blames e := by
  obtain ⟨us, t, more, hus, hsound, hspan, hfault⟩ := h.place
  refine ⟨h.syntactic, ts ++ us, t, more, ?_, ?_, hspan, hfault⟩
  · rw [htokens, hus, List.append_assoc]
  · intro u hu
    exact (List.mem_append.1 hu).elim (hts u) (hsound u)

theorem complaint_blames (c : Cursor) (what : String) : c.Blames ⟨c.complaint what, c.here.span⟩ := by
  unfold complaint
  apply Blames.at_here
  · split <;> rfl
  · intro f
    split <;> simp_all

end Cursor

namespace Parse

open Token

variable {α β : Type} {c : Cursor} {P Q R : List Token → Prop} {p : Parse α} {f : α → Parse β}

theorem run_bind_gives {a : α} {c' : Cursor} (h : Gives p c a c') : (p >>= f).run c = (f a).run c' := by
  rw [StateT.run_bind, h]
  rfl

theorem run_bind_ok {b : β} {c'' : Cursor} (h : (p >>= f).run c = .ok (b, c'')) :
    ∃ a c', p.run c = .ok (a, c') ∧ (f a).run c' = .ok (b, c'') := by
  rw [StateT.run_bind] at h
  cases hp : p.run c with
  | error e =>
    rw [hp] at h
    contradiction
  | ok found =>
    rw [hp] at h
    exact ⟨found.1, found.2, rfl, h⟩

theorem run_bind_error {e : SyntaxTrouble} (h : (p >>= f).run c = .error e) :
    p.run c = .error e ∨ ∃ a c', p.run c = .ok (a, c') ∧ (f a).run c' = .error e := by
  rw [StateT.run_bind] at h
  cases hp : p.run c with
  | error e' =>
    rw [hp] at h
    cases h
    exact .inl rfl
  | ok found =>
    rw [hp] at h
    exact .inr ⟨found.1, found.2, rfl, h⟩

/-- From the cursor on, the parser passes tokens of which `P` holds or fails where it should. -/
structure Passing (p : Parse α) (c : Cursor) (P : List Token → Prop) : Prop where
  passes : c.Ends → ∀ {a c'}, p.run c = .ok (a, c') → ∃ ts, c.tokens = ts ++ c'.tokens ∧ P ts
  blames : c.Ends → ∀ {e}, p.run c = .error e → c.Blames e

namespace Passing

theorem mono (h : Passing p c P) (hPQ : ∀ ts, P ts → Q ts) : Passing p c Q := by
  refine ⟨fun hc _ _ hrun => ?_, h.blames⟩
  obtain ⟨ts, htokens, hts⟩ := h.passes hc hrun
  exact ⟨ts, htokens, hPQ ts hts⟩

theorem unfilled (h : Passing p c (Filled P)) : Passing p c P := h.mono fun _ hts => hts.2

theorem toSafe (h : Passing p c (Filled Sealed)) : Passing p c (Filled Safe) :=
  h.mono fun _ hts => ⟨hts.1, hts.2.toSafe⟩

/-- Parsers one after the other, the second one wherever the first one leads. -/
theorem bind (hp : Passing p c P) (hf : ∀ a c', p.run c = .ok (a, c') → Passing (f a) c' Q)
    (hsound : ∀ ts, P ts → ∀ t ∈ ts, t.isFault = false) (happend : ∀ ts us, P ts → Q us → R (ts ++ us)) :
    Passing (p >>= f) c R := by
  constructor
  · intro hc b c'' hrun
    obtain ⟨a, c', hfirst, hsecond⟩ := run_bind_ok hrun
    obtain ⟨ts, hts, hP⟩ := hp.passes hc hfirst
    obtain ⟨us, hus, hQ⟩ := (hf a c' hfirst).passes (hc.passed hts) hsecond
    exact ⟨ts ++ us, by rw [hts, hus, List.append_assoc], happend ts us hP hQ⟩
  · intro hc e hrun
    rcases run_bind_error hrun with hfirst | ⟨a, c', hfirst, hsecond⟩
    · exact hp.blames hc hfirst
    · obtain ⟨ts, hts, hP⟩ := hp.passes hc hfirst
      exact ((hf a c' hfirst).blames (hc.passed hts) hsecond).earlier hts (hsound ts hP)

theorem seq [Closed P] (hp : Passing p c P) (hf : ∀ a c', Passing (f a) c' P) : Passing (p >>= f) c P :=
  hp.bind (fun a c' _ => hf a c') (fun _ => Closed.sound) fun _ _ => Closed.append

/-- The first parser passes a token, and so both together do. -/
theorem first [Closed P] (hp : Passing p c (Filled P)) (hf : ∀ a c', Passing (f a) c' P) :
    Passing (p >>= f) c (Filled P) :=
  hp.bind (fun a c' _ => hf a c') (fun _ h => Closed.sound h.2) fun _ _ ht hu =>
    ⟨by simp [ht.1], Closed.append ht.2 hu⟩

/-- The second parser passes a token, and so both together do. -/
theorem last [Closed P] (hp : Passing p c P) (hf : ∀ a c', Passing (f a) c' (Filled P)) :
    Passing (p >>= f) c (Filled P) :=
  hp.bind (fun a c' _ => hf a c') (fun _ => Closed.sound) fun _ _ ht hu => ⟨by simp [hu.1], Closed.append ht hu.2⟩

theorem of_run_eq {q : Parse α} (h : Passing q c P) (hrun : p.run c = q.run c) : Passing p c P :=
  ⟨fun hc _ _ hp => h.passes hc (hrun ▸ hp), fun hc _ hp => h.blames hc (hrun ▸ hp)⟩

theorem look {a : α} (hp : Gives p c a c) (hf : Passing (f a) c P) : Passing (p >>= f) c P :=
  hf.of_run_eq (run_bind_gives hp)

theorem pure [Closed P] (a : α) : Passing (pure a) c P := by
  constructor
  · intro _ _ _ h
    cases h
    exact ⟨[], rfl, Closed.nil⟩
  · intro _ _ h
    cases h

theorem map (g : α → β) (hp : Passing p c P) : Passing (g <$> p) c P := by
  rw [map_eq_pure_bind]
  constructor
  · intro hc b c' hrun
    obtain ⟨a, c'', hfirst, hsecond⟩ := run_bind_ok hrun
    cases hsecond
    exact hp.passes hc hfirst
  · intro hc e hrun
    rcases run_bind_error hrun with hfirst | ⟨a, c', -, hsecond⟩
    · exact hp.blames hc hfirst
    · cases hsecond

end Passing

open Passing

theorem passing_expected (what : String) : Passing (α := α) (expected what) c P := by
  constructor
  · intro _ _ _ h
    cases h
  · intro _ _ h
    cases h
    exact c.complaint_blames what

/-- A failure at the current token that is not lexical. -/
theorem passing_failAt {cause : Cause} (hsyntactic : cause.category = .syntactic) (h : ∀ f, cause ≠ .lexical f) :
    Passing (α := α) (failAt c.here cause) c P := by
  constructor
  · intro _ _ _ h
    cases h
  · intro _ _ hrun
    cases hrun
    exact .at_here hsyntactic fun f hf => absurd hf (h f)

theorem passing_advance (h : c.here.isPlain = true) : Passing advance c (Filled Sealed) := by
  constructor
  · intro hc _ _ hrun
    cases hrun
    exact ⟨[c.here], hc.next_tokens (isFinish_of_plain h), .single h⟩
  · intro _ _ hrun
    cases hrun

theorem run_accept {test : Token → Bool} (h : test c.here = true) (f : Bool → Parse β) :
    (accept test >>= f).run c = (advance >>= fun _ => f true).run c :=
  run_bind_gives (gives_accept h)

theorem run_accept_not {test : Token → Bool} (h : test c.here = false) (f : Bool → Parse β) :
    (accept test >>= f).run c = (f false).run c :=
  run_bind_gives (gives_accept_not h)

section

variable {test : Token → Bool} (htest : ∀ t, test t = true → t.isPlain = true)
include htest

theorem passing_accept : Passing (accept test) c Sealed := by
  unfold accept
  refine look (gives_at test c) ?_
  split
  · rename_i h
    exact seq (passing_advance (htest _ h)).unfilled fun _ _ => .pure true
  · exact .pure false

theorem passing_consume (what : String) : Passing (consume test what) c (Filled Sealed) := by
  unfold consume
  refine look (gives_at test c) ?_
  split
  · rename_i h
    exact passing_advance (htest _ h)
  · exact passing_expected what

end

theorem passing_acceptKeyword (k : Keyword) : Passing (acceptKeyword k) c Sealed :=
  passing_accept fun t h => isPlain_of_keyword ((hasKeyword_iff t k).1 h)

theorem passing_consumeKeyword (k : Keyword) (what : String) : Passing (consumeKeyword k what) c (Filled Sealed) :=
  passing_consume (fun t h => isPlain_of_keyword ((hasKeyword_iff t k).1 h)) what

theorem passing_acceptSymbol {s : Symbol} (hl : s ≠ .leftBrace) (hr : s ≠ .rightBrace) :
    Passing (acceptSymbol s) c Sealed :=
  passing_accept fun _ h => isPlain_of_symbol h hl hr

theorem passing_consumeSymbol {s : Symbol} (hl : s ≠ .leftBrace) (hr : s ≠ .rightBrace) (what : String) :
    Passing (consumeSymbol s what) c (Filled Sealed) :=
  passing_consume (fun _ h => isPlain_of_symbol h hl hr) what

theorem passing_skipWhile {test : Token → Bool}
    (htest : ∀ t, test t = true → t.isFinish = false ∧ P [t]) [Closed P] (n : Nat) :
    Passing (skipWhile test n) c P := by
  induction n generalizing c with
  | zero => exact .pure ()
  | succ n ih =>
    unfold skipWhile accept
    refine seq (look (gives_at test c) ?_) ?_
    · split
      · rename_i h
        refine seq ⟨fun hc _ _ hrun => ?_, fun _ _ hrun => by cases hrun⟩ fun _ _ => .pure true
        cases hrun
        exact ⟨[c.here], hc.next_tokens (htest _ h).1, (htest _ h).2⟩
      · exact .pure false
    · intro b c'
      split
      · exact ih
      · exact .pure ()

theorem passing_skipNewlines : Passing skipNewlines c Even := by
  refine look (gives_rounds c) (passing_skipWhile (fun t h => ?_) _)
  have hnewline : t.content = .newline := by
    split at h <;> simp_all
  exact ⟨by simp [isFinish, hnewline], .newline hnewline⟩

end Parse

end DeskScript
