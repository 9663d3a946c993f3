import DeskScript.Proofs.Syntax.PassingExpression
import Mathlib.Data.List.Forall2

set_option autoImplicit false

/-!
# Two parsers side by side

The same text may stand in two sources, ended by a line end or by the end of the source. Two parsers run in tandem if,
whenever the first one succeeds without leaving that text, the second one succeeds as well, at the corresponding place
and with a corresponding result. Places differ by the distance of the two texts from the start of their source, so two
results correspond if they are equal but for places.
-/

namespace DeskScript

open Token

def Token.Borders (t : Token) (more : List Token) : Prop := t.content = .newline ∨ t.content = .finish ∧ more = []

/-- A text that stands in two sources: what surrounds it, the token that ends it, and the tokens beyond. -/
structure Excerpt where
  text : List Char
  before₁ : List Char
  before₂ : List Char
  after₁ : List Char
  after₂ : List Char
  border₁ : Token
  border₂ : Token
  more₁ : List Token
  more₂ : List Token
  borders₁ : border₁.Borders more₁
  borders₂ : border₂.Borders more₂
  ends₁ : ∃ ts t, border₁ :: more₁ = ts ++ [t] ∧ t.isFinish = true
  ends₂ : ∃ ts t, border₂ :: more₂ = ts ++ [t] ∧ t.isFinish = true

namespace Excerpt

def swap (S : Excerpt) : Excerpt :=
  ⟨S.text, S.before₂, S.before₁, S.after₂, S.after₁, S.border₂, S.border₁, S.more₂, S.more₁, S.borders₂, S.borders₁,
    S.ends₂, S.ends₁⟩

variable (S : Excerpt)

/-- Two locations at the same distance from the start of the text. -/
def Level (l₁ l₂ : Location) : Prop :=
  ∃ i ≤ S.text.length, l₁.offset = S.before₁.length + i ∧ l₂.offset = S.before₂.length + i

structure Alike (t₁ t₂ : Token) : Prop where
  content : t₂.content = t₁.content
  lexeme : t₂.lexeme = t₁.lexeme
  inner : t₁.isFinish = false
  start : S.Level t₁.span.start t₂.span.start
  stop : S.Level t₁.span.stop t₂.span.stop

structure Beside (c₁ c₂ : Cursor) : Prop where
  source₁ : c₁.source = some (S.before₁ ++ S.text ++ S.after₁)
  source₂ : c₂.source = some (S.before₂ ++ S.text ++ S.after₂)
  ahead : ∃ ts₁ ts₂, c₁.tokens = ts₁ ++ S.border₁ :: S.more₁ ∧ c₂.tokens = ts₂ ++ S.border₂ :: S.more₂ ∧
    List.Forall₂ S.Alike ts₁ ts₂

structure Abreast (c₁ c₂ : Cursor) : Prop extends S.Beside c₁ c₂ where
  previous : S.Alike c₁.previous c₂.previous

variable {S} {t₁ t₂ u₁ u₂ : Token} {c₁ c₂ : Cursor}

theorem Level.swap {l₁ l₂ : Location} (h : S.Level l₁ l₂) : S.swap.Level l₂ l₁ := by
  obtain ⟨i, hi, h₁, h₂⟩ := h
  exact ⟨i, hi, h₂, h₁⟩

theorem Alike.swap (h : S.Alike t₁ t₂) : S.swap.Alike t₂ t₁ := by
  refine ⟨h.content.symm, h.lexeme.symm, ?_, h.start.swap, h.stop.swap⟩
  rw [isFinish, h.content]
  exact h.inner

theorem Beside.swap (h : S.Beside c₁ c₂) : S.swap.Beside c₂ c₁ := by
  obtain ⟨ts₁, ts₂, h₁, h₂, halike⟩ := h.ahead
  exact ⟨h.source₂, h.source₁, ts₂, ts₁, h₂, h₁, (halike.imp fun _ _ => Alike.swap).flip⟩

theorem Abreast.swap (h : S.Abreast c₁ c₂) : S.swap.Abreast c₂ c₁ := ⟨h.toBeside.swap, h.previous.swap⟩

theorem Alike.adjacent (ht : S.Alike t₁ t₂) (hu : S.Alike u₁ u₂) : t₂.adjacent u₂ = t₁.adjacent u₁ := by
  obtain ⟨i, -, hi₁, hi₂⟩ := ht.stop
  obtain ⟨j, -, hj₁, hj₂⟩ := hu.start
  unfold Token.adjacent
  rw [hi₁, hi₂, hj₁, hj₂, Bool.eq_iff_iff]
  simp

/-- The same part of the text is quoted from both sources. -/
theorem Level.between {l₁ l₂ m₁ m₂ : Location} (hl : S.Level l₁ l₂) (hm : S.Level m₁ m₂) :
    ((S.before₂ ++ S.text ++ S.after₂).drop l₂.offset).take (m₂.offset - l₂.offset) =
      ((S.before₁ ++ S.text ++ S.after₁).drop l₁.offset).take (m₁.offset - l₁.offset) := by
  obtain ⟨i, hi, hi₁, hi₂⟩ := hl
  obtain ⟨j, hj, hj₁, hj₂⟩ := hm
  have hquote (before after : List Char) (l m : Nat) (hl : l = before.length + i) (hm : m = before.length + j) :
      ((before ++ S.text ++ after).drop l).take (m - l) = (S.text.drop i).take (j - i) := by
    rw [hl, hm, List.append_assoc, List.drop_length_add_append, List.drop_append_of_le_length hi, Nat.add_sub_add_left,
      List.take_append_of_le_length]
    rw [List.length_drop]
    omega
  rw [hquote _ _ _ _ hi₂ hj₂, hquote _ _ _ _ hi₁ hj₁]

theorem Beside.ahead_eq (h : S.Beside c₁ c₂) : c₁.ahead + S.more₂.length = c₂.ahead + S.more₁.length := by
  obtain ⟨ts₁, ts₂, h₁, h₂, halike⟩ := h.ahead
  have hl₁ := congrArg List.length h₁
  have hl₂ := congrArg List.length h₂
  have hl := halike.length_eq
  simp only [Cursor.tokens, List.length_append, List.length_cons] at hl₁ hl₂
  unfold Cursor.ahead
  omega

theorem Beside.within (h : S.Beside c₁ c₂) : S.more₁.length ≤ c₁.ahead := by
  obtain ⟨ts₁, ts₂, h₁, -, -⟩ := h.ahead
  have hl₁ := congrArg List.length h₁
  simp only [Cursor.tokens, List.length_append, List.length_cons] at hl₁
  unfold Cursor.ahead
  omega

theorem Beside.ends (h : S.Beside c₁ c₂) : c₁.Ends := by
  obtain ⟨ts₁, ts₂, h₁, -, -⟩ := h.ahead
  obtain ⟨ts, t, hts, ht⟩ := S.ends₁
  exact ⟨ts₁ ++ ts, t, by rw [h₁, hts, List.append_assoc], ht⟩

/-- Either both cursors stand on the same token of the text, or both stand behind it. -/
theorem Beside.cases (h : S.Beside c₁ c₂) :
    (S.Alike c₁.here c₂.here ∧ S.Abreast c₁.next c₂.next ∧ c₁.next.ahead < c₁.ahead ∧
      c₁.following = c₁.next.here ∧ c₂.following = c₂.next.here) ∨
    (c₁.here = S.border₁ ∧ c₁.rest = S.more₁ ∧ c₂.here = S.border₂ ∧ c₂.rest = S.more₂) := by
  obtain ⟨ts₁, ts₂, h₁, h₂, halike⟩ := h.ahead
  cases halike with
  | nil =>
    obtain ⟨hhere₁, hrest₁⟩ := List.cons.inj h₁
    obtain ⟨hhere₂, hrest₂⟩ := List.cons.inj h₂
    exact .inr ⟨hhere₁, hrest₁, hhere₂, hrest₂⟩
  | @cons t₁ t₂ us₁ us₂ ht halike =>
    obtain ⟨hhere₁, hrest₁⟩ := List.cons.inj h₁
    obtain ⟨hhere₂, hrest₂⟩ := List.cons.inj h₂
    have hmoves (c : Cursor) (us more : List Token) (border : Token) (hinner : c.here.isFinish = false)
        (hrest : c.rest = us ++ border :: more) :
        c.next.tokens = us ++ border :: more ∧ c.next.previous = c.here ∧ c.next.source = c.source ∧
          c.next.ahead < c.ahead ∧ c.following = c.next.here := by
      obtain ⟨u, rest, hcons⟩ : ∃ u rest, us ++ border :: more = u :: rest := by
        cases us with
        | nil => exact ⟨_, _, rfl⟩
        | cons u us => exact ⟨_, _, rfl⟩
      rw [hcons] at hrest ⊢
      have hnext : c.next = { c with index := c.index + 1, previous := c.here, here := u, rest := rest } := by
        unfold Cursor.next
        simp [hrest, hinner]
      rw [hnext]
      simp [Cursor.tokens, Cursor.ahead, Cursor.following, hrest]
    have hinner₁ : c₁.here.isFinish = false := by rw [hhere₁, ht.inner]
    have hinner₂ : c₂.here.isFinish = false := by rw [hhere₂, isFinish, ht.content]; exact ht.inner
    obtain ⟨hn₁, hp₁, hs₁, hlt, hf₁⟩ := hmoves c₁ _ _ _ hinner₁ hrest₁
    obtain ⟨hn₂, hp₂, hs₂, -, hf₂⟩ := hmoves c₂ _ _ _ hinner₂ hrest₂
    rw [← hhere₁, ← hhere₂] at ht
    exact .inl ⟨ht, ⟨⟨by rw [hs₁, h.source₁], by rw [hs₂, h.source₂], _, _, hn₁, hn₂, halike⟩, by rwa [hp₁, hp₂]⟩, hlt,
      hf₁, hf₂⟩

end Excerpt

namespace Parse

open Passing

variable {α β γ δ : Type} {S : Excerpt} {k : Nat} {c₁ c₂ : Cursor} {p : Parse α} {q : Parse β} {f : α → Parse γ}
  {g : β → Parse δ} {R : γ → δ → Prop}

def Sound (ts : List Token) : Prop := ∀ t ∈ ts, t.isFault = false

instance : Closed Sound :=
  ⟨by simp [Sound], fun ht hu t h => (List.mem_append.1 h).elim (ht t) (hu t), fun h => h⟩

class Onward (p : Parse α) : Prop where
  passing : ∀ {c}, Passing p c Sound

theorem Passing.sound {P : List Token → Prop} [Closed P] {c : Cursor} (h : Passing p c P) : Passing p c Sound :=
  h.mono fun _ => Closed.sound

theorem Onward.tokens [Onward p] {c c' : Cursor} {a : α} (hc : c.Ends) (h : p.run c = .ok (a, c')) :
    ∃ ts, c.tokens = ts ++ c'.tokens := by
  obtain ⟨ts, hts, -⟩ := (passing (p := p)).passes hc h
  exact ⟨ts, hts⟩

theorem Onward.ahead_le [Onward p] {c c' : Cursor} {a : α} (hc : c.Ends) (h : p.run c = .ok (a, c')) :
    c'.ahead ≤ c.ahead := by
  obtain ⟨ts, hts⟩ := Onward.tokens hc h
  have hlength := congrArg List.length hts
  simp only [Cursor.tokens, List.length_append, List.length_cons] at hlength
  unfold Cursor.ahead
  omega

theorem Passing.ahead_lt {P : List Token → Prop} {c c' : Cursor} {a : α} (h : Passing p c (Filled P)) (hc : c.Ends)
    (hrun : p.run c = .ok (a, c')) : c'.ahead < c.ahead := by
  obtain ⟨ts, hts, hne, -⟩ := h.passes hc hrun
  have hlength := congrArg List.length hts
  have hpositive := List.length_pos_of_ne_nil hne
  simp only [Cursor.tokens, List.length_append, List.length_cons] at hlength
  unfold Cursor.ahead
  omega

theorem onward_of_gives (h : ∀ c, ∃ a, Gives p c a c) : Onward p := by
  refine ⟨fun {c} => ?_⟩
  obtain ⟨a, ha⟩ := h c
  exact (Passing.pure a).of_run_eq ha

instance (a : α) : Onward (pure a : Parse α) := ⟨.pure a⟩

instance [Onward p] [∀ a, Onward (f a)] : Onward (p >>= f) := ⟨seq Onward.passing fun _ _ => Onward.passing⟩

instance (h : α → γ) [Onward p] : Onward (h <$> p) := ⟨Onward.passing.map h⟩

instance {p' : Parse α} (test : Prop) [Decidable test] [Onward p] [Onward p'] : Onward (if test then p else p') :=
  ⟨by split <;> exact Onward.passing⟩

instance : Onward here := onward_of_gives fun c => ⟨_, gives_here c⟩

instance (test : Token → Bool) : Onward (at_ test) := onward_of_gives fun c => ⟨_, gives_at test c⟩

instance (start : Token) : Onward (spanFrom start) := onward_of_gives fun c => ⟨_, gives_spanFrom start c⟩

instance : Onward rounds := onward_of_gives fun c => ⟨_, gives_rounds c⟩

instance : Onward skipNewlines := ⟨passing_skipNewlines.sound⟩

/-- If the first parser succeeds and has still `k` tokens of the text ahead, then so does the second one, at the same
place of the text and with a corresponding result. -/
structure Tandem (S : Excerpt) (k : Nat) (p : Parse α) (q : Parse β) (c₁ c₂ : Cursor) (R : α → β → Prop) : Prop where
  follows : ∀ {a c₁'}, p.run c₁ = .ok (a, c₁') → S.more₁.length + k ≤ c₁'.ahead →
    ∃ b c₂', q.run c₂ = .ok (b, c₂') ∧ R a b ∧ S.Abreast c₁' c₂'

namespace Tandem

theorem of_run_eq {p' : Parse α} {q' : Parse β} {Q : α → β → Prop} {c₁' c₂' : Cursor}
    (h : Tandem S k p' q' c₁' c₂' Q) (hp : p.run c₁ = p'.run c₁') (hq : q.run c₂ = q'.run c₂') :
    Tandem S k p q c₁ c₂ Q := by
  refine ⟨fun hrun hk => ?_⟩
  rw [hp] at hrun
  rw [hq]
  exact h.follows hrun hk

theorem of_error {Q : α → β → Prop} {e : SyntaxTrouble} (h : p.run c₁ = .error e) : Tandem S k p q c₁ c₂ Q := by
  refine ⟨fun hrun => ?_⟩
  rw [h] at hrun
  contradiction

theorem pure {a : γ} {b : δ} (h : R a b) (habreast : S.Abreast c₁ c₂) :
    Tandem S k (Pure.pure a) (Pure.pure b) c₁ c₂ R := by
  refine ⟨fun hrun _ => ?_⟩
  cases hrun
  exact ⟨b, c₂, rfl, h, habreast⟩

theorem step {a : α} {b : β} {c₁' c₂' : Cursor} (hp : Gives p c₁ a c₁') (hq : Gives q c₂ b c₂')
    (h : Tandem S k (f a) (g b) c₁' c₂' R) : Tandem S k (p >>= f) (q >>= g) c₁ c₂ R :=
  h.of_run_eq (run_bind_gives hp) (run_bind_gives hq)

section

variable {Q : α → β → Prop} [Onward p] (hends : c₁.Ends)
include hends

/-- The two second parsers run from wherever the first ones lead, if they lead to the text at all. -/
theorem through {j : Nat}
    (hmid : ∀ {a c b c'}, c.Ends → (f a).run c = .ok (b, c') → S.more₁.length + k ≤ c'.ahead →
      S.more₁.length + j ≤ c.ahead)
    (hp : Tandem S j p q c₁ c₂ Q)
    (hf : ∀ a b c₁' c₂', Q a b → S.Abreast c₁' c₂' → p.run c₁ = .ok (a, c₁') → Tandem S k (f a) (g b) c₁' c₂' R) :
    Tandem S k (p >>= f) (q >>= g) c₁ c₂ R := by
  refine ⟨fun hrun hk => ?_⟩
  obtain ⟨a, c₁', hfirst, hsecond⟩ := run_bind_ok hrun
  obtain ⟨ts, hts⟩ := Onward.tokens hends hfirst
  obtain ⟨a', c₂', hfirst', ha, habreast⟩ := hp.follows hfirst (hmid (hends.passed hts) hsecond hk)
  obtain ⟨b', c₂'', hsecond', hb, habreast'⟩ := (hf a a' c₁' c₂' ha habreast hfirst).follows hsecond hk
  refine ⟨b', c₂'', ?_, hb, habreast'⟩
  rw [StateT.run_bind, hfirst']
  exact hsecond'

theorem bind [∀ a, Onward (f a)] (hp : Tandem S k p q c₁ c₂ Q)
    (hf : ∀ a b c₁' c₂', Q a b → S.Abreast c₁' c₂' → c₁'.ahead ≤ c₁.ahead → Tandem S k (f a) (g b) c₁' c₂' R) :
    Tandem S k (p >>= f) (q >>= g) c₁ c₂ R := by
  refine through hends (fun hc hrun hk => ?_) hp fun a b c₁' c₂' ha h hrun => ?_
  · exact Nat.le_trans hk (Onward.ahead_le hc hrun)
  · exact hf a b c₁' c₂' ha h (Onward.ahead_le hends hrun)

/-- The first parsers need not be in tandem at the end of the text if the second one passes another token of it. -/
theorem loosely {P : List Token → Prop} (hlast : ∀ a c, Passing (f a) c (Filled P)) (hp : Tandem S 1 p q c₁ c₂ Q)
    (hf : ∀ a b c₁' c₂', Q a b → S.Abreast c₁' c₂' → c₁'.ahead ≤ c₁.ahead → Tandem S k (f a) (g b) c₁' c₂' R) :
    Tandem S k (p >>= f) (q >>= g) c₁ c₂ R := by
  refine through hends (fun hc hrun hk => ?_) hp fun a b c₁' c₂' ha h hrun => ?_
  · have hlt := (hlast _ _).ahead_lt hc hrun
    omega
  · exact hf a b c₁' c₂' ha h (Onward.ahead_le hends hrun)

end

theorem map {Q : α → β → Prop} {h : α → γ} {h' : β → δ} (hp : Tandem S k p q c₁ c₂ Q)
    (hQ : ∀ a b, Q a b → R (h a) (h' b)) : Tandem S k (h <$> p) (h' <$> q) c₁ c₂ R := by
  refine ⟨fun hrun hk => ?_⟩
  rw [map_eq_pure_bind] at hrun
  obtain ⟨a, c, hfirst, hsecond⟩ := run_bind_ok hrun
  cases hsecond
  obtain ⟨a', c₂', hfirst', ha, habreast⟩ := hp.follows hfirst hk
  refine ⟨h' a', c₂', ?_, hQ a a' ha, habreast⟩
  rw [map_eq_pure_bind, StateT.run_bind, hfirst']
  rfl

/-- A parser that passes a token succeeds nowhere behind the text. -/
theorem inner {Q : α → β → Prop} {P : List Token → Prop} (h : S.Beside c₁ c₂) (hp : Passing p c₁ (Filled P))
    (hinner : S.Alike c₁.here c₂.here → S.Abreast c₁.next c₂.next → c₁.next.ahead < c₁.ahead →
      c₁.following = c₁.next.here → c₂.following = c₂.next.here → Tandem S k p q c₁ c₂ Q) :
    Tandem S k p q c₁ c₂ Q := by
  rcases h.cases with ⟨halike, hnext, hlt, hf₁, hf₂⟩ | ⟨-, hrest, -, -⟩
  · exact hinner halike hnext hlt hf₁ hf₂
  · refine ⟨fun hrun hk => ?_⟩
    have hlt := hp.ahead_lt h.ends hrun
    simp only [Cursor.ahead, hrest] at hlt hk
    omega

end Tandem

/-- A test that looks at the content only, and that neither a line end nor the end of the source satisfies. -/
structure Sorts (test : Token → Bool) : Prop where
  content : ∀ {t u : Token}, u.content = t.content → test u = test t
  newline : ∀ {t : Token}, t.content = .newline → test t = false
  finish : ∀ {t : Token}, t.content = .finish → test t = false

theorem Sorts.border {test : Token → Bool} (h : Sorts test) {t : Token} {more : List Token} (ht : t.Borders more) :
    test t = false := by
  rcases ht with ht | ⟨ht, -⟩
  · exact h.newline ht
  · exact h.finish ht

theorem sorts_symbol (s : Symbol) : Sorts (·.hasSymbol s) :=
  ⟨fun h => by simp [Token.hasSymbol, h], fun h => by simp [Token.hasSymbol, h], fun h => by simp [Token.hasSymbol, h]⟩

theorem sorts_keyword (k : Keyword) : Sorts (·.hasKeyword k) :=
  ⟨fun h => by simp [Token.hasKeyword, h], fun h => by simp [Token.hasKeyword, h],
    fun h => by simp [Token.hasKeyword, h]⟩

theorem sorts_nameLike : Sorts Token.isNameLike :=
  ⟨fun h => by simp [Token.isNameLike, Token.isKeyword, h], fun h => by simp [Token.isNameLike, Token.isKeyword, h],
    fun h => by simp [Token.isNameLike, Token.isKeyword, h]⟩

theorem sorts_wordPart : Sorts isWordPart :=
  ⟨fun h => by simp [isWordPart, h], fun h => by simp [isWordPart, h], fun h => by simp [isWordPart, h]⟩

theorem sorts_beginsArgument : Sorts beginsArgument :=
  ⟨fun h => by simp [beginsArgument, h], fun h => by simp [beginsArgument, h], fun h => by simp [beginsArgument, h]⟩

theorem Beside.test {test : Token → Bool} (ht : Sorts test) (h : S.Beside c₁ c₂) : test c₂.here = test c₁.here := by
  rcases h.cases with ⟨halike, -⟩ | ⟨h₁, -, h₂, -⟩
  · exact ht.content halike.content
  · rw [h₁, h₂, ht.border S.borders₁, ht.border S.borders₂]

namespace Tandem

variable {test : Token → Bool} (ht : Sorts test) {f' : Bool → Parse γ} {g' : Bool → Parse δ}
include ht

theorem at_ (h : S.Beside c₁ c₂) (htrue : test c₁.here = true → Tandem S k (f' true) (g' true) c₁ c₂ R)
    (hfalse : test c₁.here = false → Tandem S k (f' false) (g' false) c₁ c₂ R) :
    Tandem S k (Parse.at_ test >>= f') (Parse.at_ test >>= g') c₁ c₂ R := by
  refine step (gives_at test c₁) (gives_at test c₂) ?_
  rw [Beside.test ht h]
  cases hhere : test c₁.here with
  | true => exact htrue hhere
  | false => exact hfalse hhere

theorem accept (h : S.Beside c₁ c₂)
    (htrue : S.Abreast c₁.next c₂.next → c₁.next.ahead < c₁.ahead → Tandem S k (f' true) (g' true) c₁.next c₂.next R)
    (hfalse : Tandem S k (f' false) (g' false) c₁ c₂ R) :
    Tandem S k (Parse.accept test >>= f') (Parse.accept test >>= g') c₁ c₂ R := by
  have htest := Beside.test ht h
  cases hhere : test c₁.here with
  | true =>
    rw [hhere] at htest
    refine step (gives_accept hhere) (gives_accept htest) ?_
    rcases h.cases with ⟨-, hnext, hlt, -⟩ | ⟨h₁, -⟩
    · exact htrue hnext hlt
    · rw [h₁, ht.border S.borders₁] at hhere
      contradiction
  | false =>
    rw [hhere] at htest
    exact step (gives_accept_not hhere) (gives_accept_not htest) hfalse

theorem consume {what : String} {f' : Token → Parse γ} {g' : Token → Parse δ} (h : S.Beside c₁ c₂)
    (htrue : S.Alike c₁.here c₂.here → S.Abreast c₁.next c₂.next → c₁.next.ahead < c₁.ahead →
      Tandem S k (f' c₁.here) (g' c₂.here) c₁.next c₂.next R) :
    Tandem S k (Parse.consume test what >>= f') (Parse.consume test what >>= g') c₁ c₂ R := by
  have htest := Beside.test ht h
  cases hhere : test c₁.here with
  | true =>
    rw [hhere] at htest
    refine step (gives_consume what hhere) (gives_consume what htest) ?_
    rcases h.cases with ⟨halike, hnext, hlt, -⟩ | ⟨h₁, -⟩
    · exact htrue halike hnext hlt
    · rw [h₁, ht.border S.borders₁] at hhere
      contradiction
  | false =>
    refine ⟨fun hrun => ?_⟩
    obtain ⟨t, c', hfirst, -⟩ := run_bind_ok hrun
    unfold Parse.consume at hfirst
    rw [run_bind_gives (gives_at test c₁), hhere, if_neg Bool.false_ne_true] at hfirst
    cases hfirst

end Tandem

theorem tandem_accept {test : Token → Bool} (ht : Sorts test) (h : S.Abreast c₁ c₂) :
    Tandem S k (accept test) (accept test) c₁ c₂ (· = ·) := by
  rw [← bind_pure (accept test)]
  exact .accept ht h.toBeside (fun hnext _ => .pure rfl hnext) (.pure rfl h)

section

variable {test : Token → Bool} (hcontent : ∀ {t u : Token}, u.content = t.content → test u = test t)
  (honward : ∀ n, Onward (skipWhile test n))
include hcontent honward

/-- What is skipped in front of a token of the text is skipped in both sources. -/
theorem skipWhile_beside {n₁ n₂ : Nat} {c₁' : Cursor} (h : S.Beside c₁ c₂) (hn₁ : c₁.ahead < n₁) (hn₂ : c₂.ahead < n₂)
    (hrun : (skipWhile test n₁).run c₁ = .ok ((), c₁')) (hk : S.more₁.length + 1 ≤ c₁'.ahead) :
    ∃ c₂', (skipWhile test n₂).run c₂ = .ok ((), c₂') ∧ S.Beside c₁' c₂' ∧ (S.Abreast c₁ c₂ → S.Abreast c₁' c₂') := by
  induction n₁ generalizing n₂ c₁ c₂ with
  | zero => omega
  | succ n₁ ih =>
    obtain ⟨n₂, rfl⟩ : ∃ n, n₂ = n + 1 := ⟨n₂ - 1, by omega⟩
    rcases h.cases with ⟨halike, hnext, hlt, -, -⟩ | ⟨-, hrest, -, -⟩
    · have htest := hcontent halike.content
      unfold skipWhile at hrun ⊢
      cases hhere : test c₁.here with
      | true =>
        rw [hhere] at htest
        rw [run_bind_gives (gives_accept hhere)] at hrun
        have hahead := h.ahead_eq
        have hahead' := hnext.toBeside.ahead_eq
        have hn₂' : c₂.next.ahead < n₂ := by omega
        obtain ⟨c₂', hrun', hbeside, habreast⟩ := ih hnext.toBeside (by omega) hn₂' hrun
        refine ⟨c₂', ?_, hbeside, fun _ => habreast hnext⟩
        rw [run_bind_gives (gives_accept htest)]
        exact hrun'
      | false =>
        rw [hhere] at htest
        rw [run_bind_gives (gives_accept_not hhere)] at hrun
        cases hrun
        refine ⟨c₂, ?_, h, fun h => h⟩
        rw [run_bind_gives (gives_accept_not htest)]
        rfl
    · have hle := (honward _).ahead_le h.ends hrun
      simp only [Cursor.ahead, hrest] at hle hk
      omega

theorem tandem_skipWhile (h : S.Abreast c₁ c₂) :
    Tandem S 1 (do skipWhile test (← rounds)) (do skipWhile test (← rounds)) c₁ c₂ fun _ _ => True := by
  refine .step (gives_rounds c₁) (gives_rounds c₂) ⟨fun hrun hk => ?_⟩
  obtain ⟨c₂', hrun', -, habreast⟩ := skipWhile_beside hcontent honward h.toBeside (Nat.lt_succ_self _)
    (Nat.lt_succ_self _) hrun hk
  exact ⟨(), c₂', hrun', trivial, habreast h⟩

end

theorem tandem_skipNewlines (h : S.Abreast c₁ c₂) : Tandem S 1 skipNewlines skipNewlines c₁ c₂ fun _ _ => True := by
  refine tandem_skipWhile (fun h => by rw [h]) (fun n => ⟨passing_skipWhile (fun t ht => ?_) n⟩) h
  have hnewline : t.content = .newline := by
    split at ht <;> simp_all
  exact ⟨by simp [isFinish, hnewline], by simp [Sound, isFault, hnewline]⟩

end Parse

end DeskScript
