import DeskScript.Proofs.Syntax.Passing
import DeskScript.Proofs.Syntax.Spacing
import DeskScript.Syntax.Statement

set_option autoImplicit false

/-!
# Where a parser leads

On tokens that lie one behind the other, a parser that passes some of them leads to a cursor whose previous token is at
or behind the first of these, and in front of the current one. What a parser gives is described together with the cursor
it leads to.
-/

namespace DeskScript

/-- Tokens that lie one behind the other, up to a `finish` token. -/
class Token.Laid (ts : List Token) : Prop where
  ends : ∃ us t, ts = us ++ [t] ∧ t.isFinish = true
  proper : ∀ t ∈ ts, t.span.start.offset ≤ t.span.stop.offset
  ordered : ts.Pairwise fun s t => s.span.stop.offset ≤ t.span.start.offset

namespace Cursor

def front (c : Cursor) : Nat := c.here.span.start.offset

def back (c : Cursor) : Nat := c.previous.span.stop.offset

def Inside (ts : List Token) (c : Cursor) : Prop := c.tokens <:+ ts

structure Clear (ts : List Token) (c : Cursor) : Prop where
  inside : c.Inside ts
  gap : c.back ≤ c.front

structure Leads (ts : List Token) (c c' : Cursor) : Prop where
  clear : c'.Clear ts
  le : c.front ≤ c'.back

def Onto (ts : List Token) (c c' : Cursor) : Prop := c' = c ∨ c.Leads ts c'

variable {ts : List Token} {c c' c'' : Cursor}

theorem Onto.refl : c.Onto ts c := .inl rfl

theorem Leads.onto (h : c.Leads ts c') : c.Onto ts c' := .inr h

theorem Leads.then (h : c.Leads ts c') (h' : c'.Onto ts c'') : c.Leads ts c'' := by
  rcases h' with rfl | h'
  · exact h
  · exact ⟨h'.clear, Nat.le_trans h.le (Nat.le_trans h.clear.gap h'.le)⟩

theorem Onto.leads (h : c.Onto ts c') (h' : c'.Leads ts c'') : c.Leads ts c'' := by
  rcases h with rfl | h
  · exact h'
  · exact h.then h'.onto

theorem Onto.trans (h : c.Onto ts c') (h' : c'.Onto ts c'') : c.Onto ts c'' := by
  rcases h with rfl | h
  · exact h'
  · exact (h.then h').onto

theorem Onto.inside (h : c.Onto ts c') (hc : c.Inside ts) : c'.Inside ts := by
  rcases h with rfl | h
  · exact hc
  · exact h.clear.inside

theorem Onto.clear (h : c.Onto ts c') (hc : c.Clear ts) : c'.Clear ts := by
  rcases h with rfl | h
  · exact hc
  · exact h.clear

theorem Onto.back_le (h : c.Onto ts c') (hc : c.Clear ts) : c.back ≤ c'.back := by
  rcases h with rfl | h
  · exact Nat.le_refl _
  · exact Nat.le_trans hc.gap h.le

theorem Onto.front_le (h : c.Onto ts c') : c.front ≤ c'.front := by
  rcases h with rfl | h
  · exact Nat.le_refl _
  · exact Nat.le_trans h.le h.clear.gap

theorem Inside.here_mem (hc : c.Inside ts) : c.here ∈ ts := hc.mem (by simp [tokens])

/-- What was read from a token on ends where the last token read ends. -/
theorem spanFrom_offsets {start : Token} {span : Span} (hspan : span = c.spanFrom start)
    (hstart : start.span.start.offset ≤ c.back) :
    span.start.offset = start.span.start.offset ∧ span.stop.offset = c.back := by
  obtain ⟨hfirst, hlast⟩ := spanFrom_of_le hstart
  rw [hspan]
  exact ⟨congrArg Location.offset hfirst, congrArg Location.offset hlast⟩

theorem spanFrom_proper {start : Token} (h : start.span.start.offset ≤ start.span.stop.offset) :
    (c.spanFrom start).start.offset ≤ (c.spanFrom start).stop.offset := by
  unfold spanFrom
  split
  · exact h
  · rename_i hle
    exact Nat.not_lt.1 hle

variable [Token.Laid ts]

theorem Inside.ends (hc : c.Inside ts) : c.Ends := by
  obtain ⟨us, hus⟩ := hc
  obtain ⟨vs, t, hvs, ht⟩ : ∃ us t, ts = us ++ [t] ∧ t.isFinish = true := Token.Laid.ends
  have hlast := congrArg List.getLast? (hus.trans hvs)
  rw [List.getLast?_append_of_ne_nil _ (by simp [tokens]), List.getLast?_concat, List.getLast?_eq_some_iff] at hlast
  obtain ⟨ws, hws⟩ := hlast
  exact ⟨ws, t, hws, ht⟩

theorem Inside.proper (hc : c.Inside ts) : c.front ≤ c.here.span.stop.offset := Token.Laid.proper c.here hc.here_mem

theorem Inside.next (hc : c.Inside ts) (hinner : c.here.isFinish = false) :
    c.Leads ts c.next ∧ c.next.back = c.here.span.stop.offset := by
  have htokens := hc.ends.next_tokens hinner
  have hprevious : c.next.back = c.here.span.stop.offset := by rw [back, hc.ends.next_previous hinner]
  have hinside : c.next.Inside ts := (List.suffix_append [c.here] c.next.tokens).trans (htokens ▸ hc)
  have hordered : c.tokens.Pairwise fun s t => s.span.stop.offset ≤ t.span.start.offset :=
    Token.Laid.ordered.sublist hc.sublist
  rw [htokens] at hordered
  refine ⟨⟨⟨hinside, ?_⟩, ?_⟩, hprevious⟩
  · rw [hprevious]
    exact (List.pairwise_append.1 hordered).2.2 c.here (by simp) c.next.here (by simp [tokens])
  · rw [hprevious]
    exact hc.proper

theorem Inside.spanFrom_next (hc : c.Inside ts) (hinner : c.here.isFinish = false) :
    c.next.spanFrom c.here = c.here.span := by
  unfold spanFrom
  rw [hc.ends.next_previous hinner, ite_self]

theorem Inside.onto_next (hc : c.Inside ts) : c.Onto ts c.next := by
  cases hinner : c.here.isFinish with
  | false => exact (hc.next hinner).1.onto
  | true =>
    refine .inl ?_
    unfold Cursor.next
    split
    · rfl
    · rw [hinner, if_pos rfl]

end Cursor

namespace Span

variable {α : Type} {span : α → Span} {P : α → Prop} {ts : List Token} {c c' : Cursor} {i j k : Nat} {nodes : List α}
  {a : α}

/-- Further tokens leave the nodes in front of them where they are. -/
theorem Lined.after (h : Lined span P i c.back nodes) (hc : c.Clear ts) (honto : c.Onto ts c') :
    Lined span P i c'.back nodes :=
  h.mono (Nat.le_refl i) (honto.back_le hc)

theorem Lined.behind (h : Lined span P i c.back nodes) (hi : i ≤ c.back) (ha : Fits span P j k a) (hj : c.back ≤ j) :
    Lined span P i k (nodes ++ [a]) :=
  h.snoc hi (ha.mono hj (Nat.le_refl k))

/-- A node of which `P` holds, on the tokens that are passed from one cursor to another. -/
structure Stands (span : α → Span) (P : α → Prop) (ts : List Token) (c : Cursor) (a : α) (c' : Cursor) : Prop where
  leads : c.Leads ts c'
  fits : Fits span P c.front c'.back a

end Span

namespace Parse

open Cursor

variable {α β : Type} {ts : List Token} {c : Cursor} {p : Parse α} {f : α → Parse β}

/-- From the cursor on, whatever the parser gives, and wherever it leads, satisfies `Q`. -/
structure Grants (p : Parse α) (c : Cursor) (Q : α → Cursor → Prop) : Prop where
  of_run : ∀ {a c'}, p.run c = .ok (a, c') → Q a c'

namespace Grants

variable {P Q : α → Cursor → Prop} {R : β → Cursor → Prop}

theorem mono (h : Grants p c P) (hPQ : ∀ a c', P a c' → Q a c') : Grants p c Q := ⟨fun hrun => hPQ _ _ (h.of_run hrun)⟩

theorem pure {a : α} (h : Q a c) : Grants (Pure.pure a) c Q := by
  refine ⟨fun hrun => ?_⟩
  cases hrun
  exact h

theorem bind (hp : Grants p c P) (hf : ∀ a c', P a c' → Grants (f a) c' R) : Grants (p >>= f) c R := by
  refine ⟨fun hrun => ?_⟩
  obtain ⟨a, c', hfirst, hsecond⟩ := run_bind_ok hrun
  exact (hf a c' (hp.of_run hfirst)).of_run hsecond

theorem of_gives {a : α} {c' : Cursor} (hp : Gives p c a c') (h : Q a c') : Grants p c Q := by
  refine ⟨fun hrun => ?_⟩
  rw [hp] at hrun
  cases hrun
  exact h

theorem step {a : α} {c' : Cursor} (hp : Gives p c a c') (hf : Grants (f a) c' R) : Grants (p >>= f) c R :=
  bind (P := fun b c'' => b = a ∧ c'' = c') (of_gives hp ⟨rfl, rfl⟩) fun _ _ ⟨hb, hc⟩ => hb ▸ hc ▸ hf

theorem map {g : α → β} (h : Grants p c fun a => R (g a)) : Grants (g <$> p) c R := by
  rw [map_eq_pure_bind]
  exact h.bind fun _ _ => pure

theorem some (h : Grants p c Q) : Grants (Option.some <$> p) c fun o c' => ∃ a, o = Option.some a ∧ Q a c' :=
  map (h.mono fun a _ ha => ⟨a, rfl, ha⟩)

theorem expected (what : String) : Grants (Parse.expected what) c Q := by
  refine ⟨fun hrun => ?_⟩
  cases hrun

theorem failAt (t : Token) (cause : Cause) : Grants (Parse.failAt t cause) c Q := by
  refine ⟨fun hrun => ?_⟩
  cases hrun

end Grants

class Moves (ts : List Token) (p : Parse α) : Prop where
  moves : ∀ {c}, c.Inside ts → Grants p c fun _ c' => c.Onto ts c'

/-- A parser of which only the place it leads to matters. -/
theorem Grants.after [Moves ts p] {Q : β → Cursor → Prop} (hc : c.Inside ts)
    (hf : ∀ a c', c.Onto ts c' → Grants (f a) c' Q) : Grants (p >>= f) c Q :=
  (Moves.moves hc).bind hf

theorem moves_of_gives (h : ∀ c, ∃ a, Gives p c a c) : Moves ts p := by
  refine ⟨fun {c} _ => ?_⟩
  obtain ⟨a, ha⟩ := h c
  exact .of_gives ha .refl

instance (a : α) : Moves ts (pure a : Parse α) := ⟨fun _ => .pure .refl⟩

instance [Moves ts p] [∀ a, Moves ts (f a)] : Moves ts (p >>= f) :=
  ⟨fun hc => (Moves.moves hc).bind fun _ _ h => (Moves.moves (h.inside hc)).mono fun _ _ => h.trans⟩

instance {q : Parse α} (test : Prop) [Decidable test] [Moves ts p] [Moves ts q] : Moves ts (if test then p else q) :=
  ⟨by split <;> exact Moves.moves⟩

instance (what : String) : Moves ts (expected what : Parse α) := ⟨fun _ => .expected what⟩

instance : Moves ts here := moves_of_gives fun c => ⟨_, gives_here c⟩

instance (test : Token → Bool) : Moves ts (at_ test) := moves_of_gives fun c => ⟨_, gives_at test c⟩

instance : Moves ts attached := moves_of_gives fun c => ⟨_, gives_attached c⟩

instance : Moves ts rounds := moves_of_gives fun c => ⟨_, gives_rounds c⟩

variable [Token.Laid ts]

instance : Moves ts advance :=
  ⟨fun {c} hc => .of_gives (gives_advance c) hc.onto_next⟩

instance (test : Token → Bool) : Moves ts (accept test) := by
  unfold accept
  infer_instance

instance (test : Token → Bool) (what : String) : Moves ts (consume test what) := by
  unfold consume
  infer_instance

instance (s : Symbol) : Moves ts (acceptSymbol s) := by
  unfold acceptSymbol
  infer_instance

instance (k : Keyword) : Moves ts (acceptKeyword k) := by
  unfold acceptKeyword
  infer_instance

instance (s : Symbol) (what : String) : Moves ts (consumeSymbol s what) := by
  unfold consumeSymbol
  infer_instance

instance (k : Keyword) (what : String) : Moves ts (consumeKeyword k what) := by
  unfold consumeKeyword
  infer_instance

instance (test : Token → Bool) (n : Nat) : Moves ts (skipWhile test n) := by
  induction n with
  | zero => exact inferInstanceAs (Moves ts (pure ()))
  | succ n ih =>
    unfold skipWhile
    infer_instance

instance : Moves ts skipNewlines := by
  unfold skipNewlines
  infer_instance

instance : Moves ts skipTerminators := by
  unfold skipTerminators
  infer_instance

instance (n : Nat) (text : String) : Moves ts (wordPartsFrom n text) := by
  induction n generalizing text with
  | zero => exact inferInstanceAs (Moves ts (pure text))
  | succ n ih =>
    unfold wordPartsFrom
    infer_instance

instance (stops : Token → Bool) (n : Nat) (lexemes : List String) : Moves ts (skipMessage stops n lexemes) := by
  induction n generalizing lexemes with
  | zero => exact inferInstanceAs (Moves ts (pure lexemes))
  | succ n ih =>
    unfold skipMessage
    infer_instance

instance : Moves ts endStatement := by
  refine ⟨fun hc => .step (gives_get _) ?_⟩
  split
  · exact Moves.moves hc
  · exact Moves.moves hc
  · exact Moves.moves hc
  · exact Moves.moves hc
  · exact Moves.moves hc

instance (what : String) : Moves ts (variableName what) := by
  refine ⟨fun hc => .step (gives_here _) ?_⟩
  split
  · exact Moves.moves hc
  · exact Moves.moves hc

instance (what : String) : Moves ts (plainName what) := by
  unfold plainName
  infer_instance

instance : Moves ts parameter := by
  refine ⟨fun hc => .step (gives_here _) ?_⟩
  split
  · exact Moves.moves hc
  · exact Moves.moves hc

instance (n : Nat) (done : List String) : Moves ts (parametersFrom n done) := by
  induction n generalizing done with
  | zero => exact inferInstanceAs (Moves ts (pure done.reverse))
  | succ n ih =>
    unfold parametersFrom
    infer_instance

instance : Moves ts parameters := by
  unfold parameters
  infer_instance

instance : Moves ts intoVariable := by
  unfold intoVariable
  infer_instance

theorem grants_consume {test : Token → Bool} (htest : ∀ t, test t = true → t.isFinish = false) (what : String)
    (hc : c.Inside ts) : Grants (consume test what) c fun t c' => t = c.here ∧ test t = true ∧ c.Leads ts c' := by
  refine .step (gives_at test c) ?_
  split
  · rename_i htrue
    exact .of_gives (gives_advance c) ⟨rfl, htrue, (hc.next (htest _ htrue)).1⟩
  · exact .expected what

end Parse

end DeskScript
