import DeskScript.Proofs.Syntax.Surfacing
import Mathlib.Logic.Relation

set_option autoImplicit false

/-!
# Moving forward

A cursor moves by passing the token it stands on, and a `finish` token is not passed. Parsers are put together from looking
at the tokens at hand, passing one and calling other parsers; some try one parser and, if it comes to nothing, another one
from where the first began. Two parsers that go along with each other differ in their calls only, so they do the same
from a cursor on if their calls do from there on. Main statements: `Parse.Along.inStep`, `Parse.Returning.inStep`,
`Parse.Woven.forth`.
-/

namespace DeskScript

namespace Cursor

variable {c c' c'' : Cursor}

structure Passes (c c' : Cursor) : Prop where
  inner : c.here.isFinish = false
  more : c.rest ≠ []
  next : c' = c.next

def Forth : Cursor → Cursor → Prop := Relation.ReflTransGen Passes

def Beyond : Cursor → Cursor → Prop := Relation.TransGen Passes

theorem Forth.refl (c : Cursor) : c.Forth c := Relation.ReflTransGen.refl

theorem Forth.trans (h : c.Forth c') (h' : c'.Forth c'') : c.Forth c'' := Relation.ReflTransGen.trans h h'

theorem Beyond.forth (h : c.Beyond c') : c.Forth c' := Relation.TransGen.to_reflTransGen h

theorem Beyond.then (h : c.Beyond c') (h' : c'.Forth c'') : c.Beyond c'' := Relation.TransGen.trans_left h h'

theorem Forth.beyond (h : c.Forth c') (h' : c'.Beyond c'') : c.Beyond c'' := Relation.TransGen.trans_right h h'

theorem Passes.tokens (h : c.Passes c') : c.tokens = c.here :: c'.tokens := by
  obtain ⟨hinner, hmore, rfl⟩ := h
  obtain ⟨t, rest, hrest⟩ := List.exists_cons_of_ne_nil hmore
  unfold Cursor.tokens Cursor.next
  simp [hrest, hinner]

theorem Forth.passed (h : c.Forth c') : ∃ ts, c.tokens = ts ++ c'.tokens ∧ ∀ t ∈ ts, t.isFinish = false := by
  induction h with
  | refl => exact ⟨[], rfl, by simp⟩
  | @tail mid last _ hpasses ih =>
    obtain ⟨ts, htokens, hts⟩ := ih
    refine ⟨ts ++ [mid.here], by rw [htokens, hpasses.tokens, List.append_assoc]; rfl, fun t ht => ?_⟩
    rcases List.mem_append.1 ht with ht | ht
    · exact hts t ht
    · rw [List.mem_singleton.1 ht]
      exact hpasses.inner

theorem Forth.ends (h : c.Forth c') (hc : c.Ends) : c'.Ends := by
  obtain ⟨ts, htokens, -⟩ := h.passed
  exact hc.passed htokens

theorem Passes.ahead (h : c.Passes c') : c.ahead = c'.ahead + 1 := by
  have htokens : c.tokens = [c.here] ++ c'.tokens := h.tokens
  have hahead := Parse.ahead_of_tokens htokens
  rw [hahead, List.length_singleton, Nat.add_comm]

theorem Forth.ahead_le (h : c.Forth c') : c'.ahead ≤ c.ahead := by
  induction h with
  | refl => exact Nat.le_refl _
  | tail _ hpasses ih =>
    have := hpasses.ahead
    omega

theorem Beyond.ahead_lt (h : c.Beyond c') : c'.ahead < c.ahead := by
  obtain ⟨mid, hpasses, hforth⟩ := Relation.TransGen.head'_iff.1 h
  have hahead := hpasses.ahead
  have hle := Forth.ahead_le hforth
  omega

theorem Ends.more (hc : c.Ends) (hinner : c.here.isFinish = false) : c.rest ≠ [] := by
  intro hnone
  have htokens := congrArg List.length (hc.next_tokens hinner)
  simp [tokens, hnone] at htokens

theorem Ends.beyond_next (hc : c.Ends) (hinner : c.here.isFinish = false) : c.Beyond c.next :=
  .single ⟨hinner, hc.more hinner, rfl⟩

/-- Passing the current token leads forth, also at the end, where nothing is passed. -/
theorem forth_next (c : Cursor) : c.Forth c.next := by
  by_cases hmore : c.rest = []
  · have hstays : c.next = c := by
      unfold next
      rw [hmore]
    rw [hstays]
    exact .refl c
  · by_cases hinner : c.here.isFinish = true
    · have hstays : c.next = c := by
        obtain ⟨t, rest, hrest⟩ := List.exists_cons_of_ne_nil hmore
        unfold next
        simp [hrest, hinner]
      rw [hstays]
      exact .refl c
    · exact .single ⟨Bool.eq_false_iff.2 hinner, hmore, rfl⟩

/-- What is seen from a cursor without moving. -/
structure View where
  source : Option (List Char)
  previous : Token
  here : Token
  following : Token
  ahead : Nat

def view (c : Cursor) : View := ⟨c.source, c.previous, c.here, c.following, c.ahead⟩

/-- A cursor from which the same is seen, the number of tokens ahead apart. -/
def View.cursor (v : View) : Cursor := ⟨v.source, 0, v.previous, v.here, [v.following]⟩

end Cursor

namespace Parse

open Cursor

variable {α β : Type}

/-- A parser that looks at the tokens at hand and stays there, or fails. -/
def observe (f : View → Except SyntaxTrouble α) : Parse α := fun c => (f c.view).map (·, c)

def retry (forgives : Bool) (first : Parse (Option α)) (second : Parse α) : Parse α := fun c =>
  match first.run c with
  | .ok (some a, c') => .ok (a, c')
  | .ok (none, _) => second.run c
  | .error e => if forgives then second.run c else .error e

/-- Two parsers that are put together alike from looking, passing tokens, and calls that correspond to each other. -/
class inductive Along (Call : (α : Type) → Parse α → Parse α → Prop) : {α : Type} → Parse α → Parse α → Prop where
  | observe {α : Type} (f : View → Except SyntaxTrouble α) : Along Call (observe f) (observe f)
  | advance : Along Call advance advance
  | call {α : Type} {p q : Parse α} (h : Call α p q) : Along Call p q
  | bind {α β : Type} {p q : Parse α} {f g : α → Parse β} (hp : Along Call p q) (hf : ∀ a, Along Call (f a) (g a)) :
    Along Call (p >>= f) (q >>= g)

/-- Two parsers that are put together alike and go back at most once, to where a first attempt began. -/
inductive Returning (Call : (α : Type) → Parse α → Parse α → Prop) : {α : Type} → Parse α → Parse α → Prop where
  | along {α : Type} {p q : Parse α} (h : Along Call p q) : Returning Call p q
  | retry {α : Type} {p q : Parse (Option α)} {r s : Parse α} (forgives : Bool) (hp : Along Call p q)
    (hr : Along Call r s) : Returning Call (retry forgives p r) (retry forgives q s)
  | before {α β : Type} {p q : Parse α} {f g : α → Parse β} (hp : Along Call p q)
    (hf : ∀ a, Returning Call (f a) (g a)) : Returning Call (p >>= f) (q >>= g)
  | behind {α β : Type} {p q : Parse α} {f g : α → Parse β} (hp : Returning Call p q)
    (hf : ∀ a, Along Call (f a) (g a)) : Returning Call (p >>= f) (q >>= g)

/-- A parser that is put together from looking, passing tokens and trying again from where an attempt began. -/
inductive Woven : {α : Type} → Parse α → Prop where
  | observe {α : Type} (f : View → Except SyntaxTrouble α) : Woven (observe f)
  | advance : Woven advance
  | bind {α β : Type} {p : Parse α} {f : α → Parse β} (hp : Woven p) (hf : ∀ a, Woven (f a)) : Woven (p >>= f)
  | retry {α : Type} {p : Parse (Option α)} {r : Parse α} (forgives : Bool) (hp : Woven p) (hr : Woven r) :
    Woven (retry forgives p r)

inductive Stays (S : Cursor → Prop) : {α : Type} → Parse α → Cursor → Prop where
  | observe {α : Type} (f : View → Except SyntaxTrouble α) {c : Cursor} (hc : S c) : Stays S (observe f) c
  | advance {c : Cursor} (hc : S c) (hnext : S c.next) : Stays S advance c
  | bind {α β : Type} {p : Parse α} {f : α → Parse β} {c : Cursor} (hp : Stays S p c)
    (hf : ∀ a c', p.run c = .ok (a, c') → Stays S (f a) c') : Stays S (p >>= f) c
  | retry {α : Type} {p : Parse (Option α)} {r : Parse α} (forgives : Bool) {c : Cursor} (hp : Stays S p c)
    (hr : Stays S r c) : Stays S (retry forgives p r) c

/-- At a cursor two parsers do the same, and what they pass is passed one token after another. -/
structure InStep (p q : Parse α) (c : Cursor) : Prop where
  same : q.run c = p.run c
  forth : ∀ {a c'}, p.run c = .ok (a, c') → c.Forth c'

structure Strides (p q : Parse α) (c : Cursor) : Prop where
  same : q.run c = p.run c
  beyond : ∀ {a c'}, p.run c = .ok (a, c') → c.Beyond c'

def NoCall (α : Type) (_ _ : Parse α) : Prop := False

/-- Two parsers that do the same wherever at least one token has been passed. -/
def Agree (c : Cursor) (α : Type) (p q : Parse α) : Prop := ∀ c', c.Beyond c' → InStep p q c'

def AgreeFrom (c : Cursor) (α : Type) (p q : Parse α) : Prop := ∀ c', c.Forth c' → InStep p q c'

section

variable {Call : (α : Type) → Parse α → Parse α → Prop} {p q : Parse α} {f g : α → Parse β} {c : Cursor}

theorem Strides.inStep (h : Strides p q c) : InStep p q c := ⟨h.same, fun hrun => (h.beyond hrun).forth⟩

theorem run_bind_congr (hsame : q.run c = p.run c)
    (hf : ∀ a c', p.run c = .ok (a, c') → (g a).run c' = (f a).run c') : (q >>= g).run c = (p >>= f).run c := by
  rw [StateT.run_bind, StateT.run_bind, hsame]
  cases hrun : p.run c with
  | error e => rfl
  | ok found => exact hf found.1 found.2 hrun

theorem InStep.bind (hp : InStep p q c) (hf : ∀ a c', p.run c = .ok (a, c') → InStep (f a) (g a) c') :
    InStep (p >>= f) (q >>= g) c := by
  refine ⟨run_bind_congr hp.same fun a c' hrun => (hf a c' hrun).same, fun hrun => ?_⟩
  obtain ⟨a, c', hfirst, hsecond⟩ := run_bind_ok hrun
  exact (hp.forth hfirst).trans ((hf a c' hfirst).forth hsecond)

theorem run_retry (forgives : Bool) (first : Parse (Option α)) (second : Parse α) (c : Cursor) :
    (retry forgives first second).run c = match first.run c with
      | .ok (some a, c') => .ok (a, c')
      | .ok (none, _) => second.run c
      | .error e => if forgives then second.run c else .error e := rfl

/-- To go back to the place from before a first parser is to try it and what may follow it. -/
theorem retry_eq (p : Parse α) (test : α → Bool) (f : α → Parse β) (second : Parse β) :
    retry false (p >>= fun a => if test a then some <$> f a else pure none) second =
      get >>= fun saved => p >>= fun a => if test a then f a else set saved >>= fun _ => second := by
  funext c
  change (retry false (p >>= fun a => if test a then some <$> f a else pure none) second).run c =
    (get >>= fun saved => p >>= fun a => if test a then f a else set saved >>= fun _ => second).run c
  rw [run_bind_gives (gives_get c), run_retry, StateT.run_bind, StateT.run_bind]
  cases p.run c with
  | error e => rfl
  | ok found =>
    change (match (if test found.1 then some <$> f found.1 else pure none : Parse (Option β)).run found.2 with
      | .ok (some b, c') => .ok (b, c')
      | .ok (none, _) => second.run c
      | .error e => if false then second.run c else .error e) =
      (if test found.1 then f found.1 else set c >>= fun _ => second : Parse β).run found.2
    cases test found.1 with
    | false => rfl
    | true =>
      rw [if_pos rfl, if_pos rfl, StateT.run_map]
      cases (f found.1).run found.2 <;> rfl

theorem InStep.retry {p q : Parse (Option α)} {r s : Parse α} (forgives : Bool) (hp : InStep p q c) (hr : InStep r s c) :
    InStep (retry forgives p r) (retry forgives q s) c := by
  refine ⟨by rw [run_retry, run_retry, hp.same, hr.same], fun {a c'} hok => ?_⟩
  rw [run_retry] at hok
  split at hok
  · rename_i hfirst
    cases hok
    exact hp.forth hfirst
  · exact hr.forth hok
  · split at hok
    · exact hr.forth hok
    · cases hok

theorem observe_stays {f : View → Except SyntaxTrouble α} {a : α} {c' : Cursor}
    (hrun : (observe f).run c = .ok (a, c')) : c' = c := by
  change (f c.view).map (·, c) = .ok (a, c') at hrun
  cases hf : f c.view with
  | error e =>
    rw [hf] at hrun
    cases hrun
  | ok b =>
    rw [hf] at hrun
    cases hrun
    rfl

theorem inStep_observe (f : View → Except SyntaxTrouble α) (c : Cursor) : InStep (observe f) (observe f) c :=
  ⟨rfl, fun hrun => observe_stays hrun ▸ .refl c⟩

theorem inStep_advance (c : Cursor) : InStep advance advance c := by
  refine ⟨rfl, fun hrun => ?_⟩
  cases hrun
  exact c.forth_next

/-- Parsers that go along with each other do the same from a cursor on if their calls do. -/
theorem Along.inStep (h : Along Call p q)
    (hcall : ∀ {α : Type} {p q : Parse α}, Call α p q → ∀ c', c.Forth c' → InStep p q c') : InStep p q c := by
  induction h generalizing c with
  | observe f => exact inStep_observe f c
  | advance => exact inStep_advance c
  | call h => exact hcall h c (.refl c)
  | bind hp hf ihp ihf =>
    refine (ihp hcall).bind fun a c' hrun => ihf a fun h c'' hforth => ?_
    exact hcall h c'' (((ihp hcall).forth hrun).trans hforth)

theorem Returning.inStep (h : Returning Call p q)
    (hcall : ∀ {α : Type} {p q : Parse α}, Call α p q → ∀ c', c.Forth c' → InStep p q c') : InStep p q c := by
  induction h generalizing c with
  | along h => exact h.inStep hcall
  | retry forgives hp hr => exact .retry forgives (hp.inStep hcall) (hr.inStep hcall)
  | before hp hf ih =>
    refine (hp.inStep hcall).bind fun a c' hrun => ih a fun h c'' hforth => ?_
    exact hcall h c'' (((hp.inStep hcall).forth hrun).trans hforth)
  | behind hp hf ih =>
    refine (ih hcall).bind fun a c' hrun => (hf a).inStep fun h c'' hforth => ?_
    exact hcall h c'' (((ih hcall).forth hrun).trans hforth)

theorem Returning.agree {c₀ : Cursor} (h : Returning (Agree c₀) p q) : Agree c₀ α p q := fun _ hc =>
  h.inStep fun hagree _ hforth => hagree _ (hc.then hforth)

theorem Along.agree {c₀ : Cursor} (h : Along (Agree c₀) p q) : Agree c₀ α p q := (Returning.along h).agree

/-- A parser that calls nothing and goes along with itself moves forward. -/
theorem Along.forth [h : Along NoCall p p] : InStep p p c := h.inStep fun hcall => hcall.elim

theorem Along.woven (h : Along Call p q) (hcall : ∀ {α : Type} {p q : Parse α}, Call α p q → Woven p) : Woven p := by
  induction h with
  | observe f => exact .observe f
  | advance => exact .advance
  | call h => exact hcall h
  | bind hp hf ihp ihf => exact .bind ihp ihf

theorem Returning.woven (h : Returning Call p q) (hcall : ∀ {α : Type} {p q : Parse α}, Call α p q → Woven p) : Woven p := by
  induction h with
  | along h => exact h.woven hcall
  | retry forgives hp hr => exact .retry forgives (hp.woven hcall) (hr.woven hcall)
  | before hp hf ih => exact .bind (hp.woven hcall) ih
  | behind hp hf ih => exact .bind ih fun a => (hf a).woven hcall

theorem Stays.lands {S : Cursor → Prop} {a : α} {c' : Cursor} (h : Stays S p c) (hrun : p.run c = .ok (a, c')) : S c' := by
  induction h generalizing c' with
  | observe f hc => exact observe_stays hrun ▸ hc
  | advance hc hnext =>
    cases hrun
    exact hnext
  | bind hp hf ihp ihf =>
    obtain ⟨a, mid, hfirst, hsecond⟩ := run_bind_ok hrun
    exact ihf a mid hfirst hsecond
  | retry forgives hp hr ihp ihr =>
    rw [run_retry] at hrun
    split at hrun
    · rename_i hfirst
      cases hrun
      exact ihp hfirst
    · exact ihr hrun
    · split at hrun
      · exact ihr hrun
      · cases hrun

theorem Woven.stays {S : Cursor → Prop} (h : Woven p) (hnext : ∀ c, S c → S c.next) (hc : S c) : Stays S p c := by
  induction h generalizing c with
  | observe f => exact .observe f hc
  | advance => exact .advance hc (hnext c hc)
  | bind hp hf ihp ihf => exact .bind (ihp hc) fun a c' hrun => ihf a ((ihp hc).lands hrun)
  | retry forgives hp hr ihp ihr => exact .retry forgives (ihp hc) (ihr hc)

/-- A woven parser stands only on cursors that are reached by passing tokens. -/
theorem Woven.forth (h : Woven p) : Stays c.Forth p c := h.stays (fun _ hc => hc.trans (forth_next _)) (.refl c)

namespace Strides

theorem bind (hp : Strides p q c) (hf : ∀ a c', c.Beyond c' → InStep (f a) (g a) c') : Strides (p >>= f) (q >>= g) c := by
  refine ⟨run_bind_congr hp.same fun a c' hrun => (hf a c' (hp.beyond hrun)).same, fun hrun => ?_⟩
  obtain ⟨a, c', hfirst, hsecond⟩ := run_bind_ok hrun
  exact (hp.beyond hfirst).then ((hf a c' (hp.beyond hfirst)).forth hsecond)

/-- Once a token is passed, calls that agree from there on are enough. -/
theorem go (hp : Strides p q c) (hf : ∀ a, Along (Agree c) (f a) (g a)) : Strides (p >>= f) (q >>= g) c :=
  hp.bind fun a c' hc => (hf a).agree c' hc

/-- The second parser passes a token, and so both together do. -/
theorem after (hp : InStep p q c) (hf : ∀ a c', c.Forth c' → Strides (f a) (g a) c') : Strides (p >>= f) (q >>= g) c := by
  refine ⟨run_bind_congr hp.same fun a c' hrun => (hf a c' (hp.forth hrun)).same, fun hrun => ?_⟩
  obtain ⟨a, c', hfirst, hsecond⟩ := run_bind_ok hrun
  exact (hp.forth hfirst).beyond ((hf a c' (hp.forth hfirst)).beyond hsecond)

theorem retry {p q : Parse (Option α)} {r s : Parse α} (forgives : Bool) (hp : Strides p q c) (hr : Strides r s c) :
    Strides (retry forgives p r) (retry forgives q s) c := by
  refine ⟨(InStep.retry forgives hp.inStep hr.inStep).same, fun {a c'} hok => ?_⟩
  rw [run_retry] at hok
  split at hok
  · rename_i hfirst
    cases hok
    exact hp.beyond hfirst
  · exact hr.beyond hok
  · split at hok
    · exact hr.beyond hok
    · cases hok

theorem look {r : Parse α} {a : α} (hr : Gives r c a c) (hf : Strides (f a) (g a) c) : Strides (r >>= f) (r >>= g) c := by
  refine ⟨by rw [run_bind_gives hr, run_bind_gives hr, hf.same], fun hrun => ?_⟩
  rw [run_bind_gives hr] at hrun
  exact hf.beyond hrun

theorem fail {e : SyntaxTrouble} (hp : p.run c = .error e) (hq : q.run c = .error e) : Strides p q c := by
  refine ⟨by rw [hp, hq], fun hrun => ?_⟩
  rw [hp] at hrun
  cases hrun

theorem expected (what : String) : Strides (α := α) (Parse.expected what) (Parse.expected what) c := .fail rfl rfl

theorem advance (hc : c.Ends) (hinner : c.here.isFinish = false) : Strides advance advance c := by
  refine ⟨rfl, fun hrun => ?_⟩
  cases hrun
  exact hc.beyond_next hinner

theorem passing {f g : Token → Parse β} (hc : c.Ends) (hinner : c.here.isFinish = false)
    (hf : ∀ a, Along (Agree c) (f a) (g a)) : Strides (Parse.advance >>= f) (Parse.advance >>= g) c :=
  (advance hc hinner).go hf

theorem consume {test : Token → Bool} (hc : c.Ends) (htest : ∀ t, test t = true → t.isFinish = false) (what : String) :
    Strides (consume test what) (consume test what) c := by
  refine .look (gives_at test c) ?_
  split
  · rename_i h
    exact .advance hc (htest _ h)
  · exact .expected what

end Strides

theorem along_of_eq_observe {r : Parse α} (f : View → Except SyntaxTrouble α) (h : r = observe f) : Along Call r r :=
  h ▸ .observe f

instance [Along Call p q] [∀ a, Along Call (f a) (g a)] : Along Call (p >>= f) (q >>= g) := .bind inferInstance inferInstance

instance (a : α) : Along Call (pure a : Parse α) (pure a) := along_of_eq_observe (fun _ => .ok a) rfl

instance [Along Call p q] (k : α → β) : Along Call (k <$> p) (k <$> q) := by
  rw [map_eq_pure_bind, map_eq_pure_bind]
  infer_instance

instance {p' q' : Parse α} (test : Prop) [Decidable test] [Along Call p q] [Along Call p' q'] :
    Along Call (if test then p else p') (if test then q else q') := by
  split <;> assumption

instance (what : String) : Along Call (expected what : Parse α) (expected what) :=
  along_of_eq_observe (fun v => .error ⟨v.cursor.complaint what, v.here.span⟩) rfl

instance (t : Token) (cause : Cause) : Along Call (failAt t cause : Parse α) (failAt t cause) :=
  along_of_eq_observe (fun _ => .error ⟨cause, t.span⟩) rfl

instance : Along Call here here := along_of_eq_observe (fun v => .ok v.here) rfl

instance : Along Call advance advance := .advance

instance (test : Token → Bool) : Along Call (at_ test) (at_ test) := along_of_eq_observe (fun v => .ok (test v.here)) rfl

instance (start : Token) : Along Call (spanFrom start) (spanFrom start) :=
  along_of_eq_observe (fun v => .ok (v.cursor.spanFrom start)) rfl

instance : Along Call attached attached := along_of_eq_observe (fun v => .ok (v.previous.adjacent v.here)) rfl

instance : Along Call rounds rounds := along_of_eq_observe (fun v => .ok (v.ahead + 1)) rfl

/-- What is done next may depend on what is seen from the cursor, the number of tokens ahead apart. -/
theorem along_get {k l : Cursor → Parse α} (hk : ∀ c, k c = k c.view.cursor) (hl : ∀ c, l c = l c.view.cursor)
    (h : ∀ c, Along Call (k c) (l c)) : Along Call (get >>= k) (get >>= l) := by
  have hseen {k : Cursor → Parse α} (hk : ∀ c, k c = k c.view.cursor) :
      get >>= k = observe Except.ok >>= fun v => k v.cursor := by
    funext c
    change k c c = k c.view.cursor c
    rw [← hk]
  rw [hseen hk, hseen hl]
  exact .bind (.observe _) fun v => h v.cursor

instance (test : Token → Bool) : Along Call (accept test) (accept test) := by
  unfold accept
  infer_instance

instance (test : Token → Bool) (what : String) : Along Call (consume test what) (consume test what) := by
  unfold consume
  infer_instance

instance (s : Symbol) : Along Call (acceptSymbol s) (acceptSymbol s) := by
  unfold acceptSymbol
  infer_instance

instance (k : Keyword) : Along Call (acceptKeyword k) (acceptKeyword k) := by
  unfold acceptKeyword
  infer_instance

instance (s : Symbol) (what : String) : Along Call (consumeSymbol s what) (consumeSymbol s what) := by
  unfold consumeSymbol
  infer_instance

instance (k : Keyword) (what : String) : Along Call (consumeKeyword k what) (consumeKeyword k what) := by
  unfold consumeKeyword
  infer_instance

instance (test : Token → Bool) (n : Nat) : Along Call (skipWhile test n) (skipWhile test n) := by
  induction n with
  | zero => exact inferInstanceAs (Along Call (pure ()) (pure ()))
  | succ n ih =>
    unfold skipWhile
    infer_instance

instance : Along Call skipNewlines skipNewlines := by
  unfold skipNewlines
  infer_instance

instance : Along Call skipTerminators skipTerminators := by
  unfold skipTerminators
  infer_instance

end

end Parse

end DeskScript
