import DeskScript.Syntax.Expression

set_option autoImplicit false

/-!
# What a parser gives

`Gives p c a c'` says that a parser succeeds at a cursor. The basic parsers are described at any cursor, or at a cursor
`facing` a list of tokens.
-/

namespace DeskScript

theorem exists_ok {ε α : Type} {r : Except ε α} (h : r.isOk = true) : ∃ a, r = .ok a := by
  cases r with
  | ok a => exact ⟨a, rfl⟩
  | error e => contradiction

namespace Cursor

def facing (source : Option (List Char)) (index : Nat) (previous : Token) : List Token → Cursor
  | [] => ⟨source, index, previous, previous, []⟩
  | t :: rest => ⟨source, index, previous, t, rest⟩

variable {source : Option (List Char)} {index : Nat} {previous t : Token} {k : List Token}

@[simp] theorem facing_here : (facing source index previous (t :: k)).here = t := rfl

@[simp] theorem facing_previous : (facing source index previous (t :: k)).previous = previous := rfl

@[simp] theorem facing_following {u : Token} : (facing source index previous (t :: u :: k)).following = u := rfl

theorem facing_next (ht : t.isFinish = false) (hk : k ≠ []) :
    (facing source index previous (t :: k)).next = facing source (index + 1) t k := by
  cases k with
  | nil => contradiction
  | cons u k => simp [next, facing, ht]

theorem facing_ahead (hk : k ≠ []) : (facing source index previous k).ahead + 1 = k.length := by
  cases k with
  | nil => contradiction
  | cons t k => rfl

theorem facing_cons (ts : List Token) :
    facing source (index + (t :: ts).length) ((t :: ts).getLastD previous) k =
      facing source (index + 1 + ts.length) (ts.getLastD t) k := by
  rw [List.getLastD_cons, List.length_cons, Nat.add_comm ts.length 1, ← Nat.add_assoc]

theorem facing_append (ts us : List Token) :
    facing source (index + (ts ++ us).length) ((ts ++ us).getLastD previous) k =
      facing source (index + ts.length + us.length) (us.getLastD (ts.getLastD previous)) k := by
  have hlast : (ts ++ us).getLastD previous = us.getLastD (ts.getLastD previous) := by
    simp [List.getLastD_eq_getLast?, List.getLast?_append]
  rw [hlast, List.length_append, Nat.add_assoc]

end Cursor

namespace Parse

open Cursor (facing facing_next)

variable {α β : Type} {c c' c'' : Cursor}

/-- At the cursor `c` the parser gives `a` and moves to `c'`. -/
def Gives (p : Parse α) (c : Cursor) (a : α) (c' : Cursor) : Prop := p.run c = .ok (a, c')

theorem gives_pure (a : α) (c : Cursor) : Gives (pure a) c a c := rfl

theorem gives_bind {p : Parse α} {f : α → Parse β} {a : α} {b : β} (hp : Gives p c a c') (hf : Gives (f a) c' b c'') :
    Gives (p >>= f) c b c'' := by
  unfold Gives at *
  rw [StateT.run_bind, hp]
  exact hf

theorem gives_map {p : Parse α} (f : α → β) {a : α} (hp : Gives p c a c') : Gives (f <$> p) c (f a) c' := by
  unfold Gives at *
  rw [StateT.run_map, hp]
  rfl

theorem gives_get (c : Cursor) : Gives get c c c := rfl

theorem gives_here (c : Cursor) : Gives here c c.here c := rfl

theorem gives_advance (c : Cursor) : Gives advance c c.here c.next := rfl

theorem gives_at (test : Token → Bool) (c : Cursor) : Gives (at_ test) c (test c.here) c := rfl

theorem gives_spanFrom (start : Token) (c : Cursor) : Gives (spanFrom start) c (c.spanFrom start) c := rfl

theorem gives_attached (c : Cursor) : Gives attached c (c.previous.adjacent c.here) c := rfl

theorem gives_rounds (c : Cursor) : Gives rounds c (c.ahead + 1) c := rfl

theorem gives_accept {test : Token → Bool} (h : test c.here = true) : Gives (accept test) c true c.next := by
  unfold accept
  refine gives_bind (gives_at test c) ?_
  rw [h]
  exact gives_bind (gives_advance c) (gives_pure true _)

theorem gives_accept_not {test : Token → Bool} (h : test c.here = false) : Gives (accept test) c false c := by
  unfold accept
  refine gives_bind (gives_at test c) ?_
  rw [h]
  exact gives_pure false c

theorem gives_consume {test : Token → Bool} (what : String) (h : test c.here = true) :
    Gives (consume test what) c c.here c.next := by
  unfold consume
  refine gives_bind (gives_at test c) ?_
  rw [h]
  exact gives_advance c

theorem gives_skipNewlines (h : c.here.content ≠ .newline) : Gives skipNewlines c () c := by
  unfold skipNewlines
  refine gives_bind (gives_rounds c) ?_
  refine gives_bind (gives_accept_not ?_) (gives_pure () c)
  simp

theorem gives_constant (value : Literal) (c : Cursor) :
    Gives (constant value) c (.literal c.here.span value) c.next := rfl

theorem hasKeyword_iff (t : Token) (k : Keyword) : t.hasKeyword k = true ↔ t.content = .keyword k := by
  unfold Token.hasKeyword
  split <;> simp_all [eq_comm]

theorem hasSymbol_iff (t : Token) (s : Symbol) : t.hasSymbol s = true ↔ t.content = .symbol s := by
  unfold Token.hasSymbol
  split <;> simp_all [eq_comm]

theorem hasSymbol_eq_false {t : Token} {s s' : Symbol} (h : t.content = .symbol s') (hne : s' ≠ s) :
    t.hasSymbol s = false := by
  rw [Bool.eq_false_iff, ne_eq, hasSymbol_iff, h]
  simpa using hne

theorem isFinish_eq_false {t : Token} {s : Symbol} (h : t.content = .symbol s) : t.isFinish = false := by
  simp [Token.isFinish, h]

section

variable {source : Option (List Char)} {index : Nat} {previous t : Token} {k : List Token} {s : Symbol}

theorem gives_acceptSymbol (h : t.content = .symbol s) (hk : k ≠ []) :
    Gives (acceptSymbol s) (facing source index previous (t :: k)) true (facing source (index + 1) t k) := by
  rw [← facing_next (isFinish_eq_false h) hk]
  exact gives_accept ((hasSymbol_iff t s).2 h)

theorem gives_consumeSymbol (what : String) (h : t.content = .symbol s) (hk : k ≠ []) :
    Gives (consumeSymbol s what) (facing source index previous (t :: k)) t (facing source (index + 1) t k) := by
  rw [← facing_next (isFinish_eq_false h) hk]
  exact gives_consume what ((hasSymbol_iff t s).2 h)

end

end Parse

end DeskScript
