import DeskScript.Syntax.Statement
import DeskScript.Proofs.Syntax.PhraseChain

set_option autoImplicit false

/-!
# Reading a printed phrase

What the parsers give on tokens that spell the marks of a phrase: lists and objects, primary expressions, accessors, and
by induction on the number of marks all phrases. Main statement: `parseExpression_print`.
-/

namespace DeskScript

namespace Parse

open Cursor (facing facing_next)

/-- A phrase is spelled by at least one token, which begins an expression. -/
theorem spelled_head {p : Phrase} {g : Bool} {wanted : Nat} {previous : Token} {ts : List Token}
    (h : Mark.Spelled previous (p.marks g wanted) ts) :
    ∃ t us, ts = t :: us ∧ t.content.begins (5 < wanted) = true := by
  obtain ⟨m, ms, hm, hopens⟩ := p.marks_head wanted
  rw [hm] at h
  obtain ⟨t, us, rfl, ht, -⟩ := Mark.spelled_cons h
  exact ⟨t, us, rfl, ht ▸ hopens.content⟩

theorem not_close_of_begins {t : Token} {tight : Bool} {close : Symbol} (h : t.content.begins tight = true)
    (hclose : close ∈ [Symbol.rightParen, .rightBracket, .rightBrace, .comma]) : t.hasSymbol close = false := by
  rw [Bool.eq_false_iff, ne_eq, hasSymbol_iff]
  intro ht
  rw [ht] at h
  simp only [List.mem_cons, List.not_mem_nil, or_false] at hclose
  rcases hclose with rfl | rfl | rfl | rfl <;> simp [Content.begins] at h

theorem not_newline_of_begins {t : Token} {tight : Bool} (h : t.content.begins tight = true) :
    t.content ≠ .newline := by
  intro ht
  simp [ht, Content.begins] at h

/-- Behind an item stands a comma or what follows the list. -/
theorem moreMarks_stops {ps : List Phrase} {previous : Token} {ts k : List Token}
    (h : Mark.Spelled previous (Phrase.moreMarks ps) ts) (hk : Stops 0 k) : Stops 0 (ts ++ k) := by
  cases ps with
  | nil =>
    obtain rfl : ts = [] := List.eq_nil_of_length_eq_zero (Mark.spelled_length h)
    exact hk
  | cons p ps =>
    obtain ⟨t, us, rfl, ht, -⟩ := Mark.spelled_cons h
    exact ⟨t, us ++ k, rfl, ht ▸ .sign .comma (by simp)⟩

theorem itemsFrom_reads {item : Parse Expr} {close : Symbol}
    (hclose : close ∈ [Symbol.rightParen, .rightBracket, .rightBrace, .comma]) (hcomma : close ≠ .comma)
    {ps : List Phrase} (hitem : ∀ p ∈ ps, Reads item 0 p) (source : Option (List Char)) (index : Nat)
    {previous t : Token} {ts k : List Token} (hts : Mark.Spelled previous (Phrase.moreMarks ps) ts)
    (ht : t.content = .symbol close) {n : Nat} (hn : ps.length ≤ n) (done : List Expr) :
    ∃ es, Gives (itemsFrom item close n done) (facing source index previous (ts ++ t :: k)) (done.reverse ++ es)
        (facing source (index + ts.length) (ts.getLastD previous) (t :: k)) ∧
      Expr.unplacedAll es = Phrase.trees ps := by
  induction ps generalizing index previous ts n done with
  | nil =>
    obtain rfl : ts = [] := List.eq_nil_of_length_eq_zero (Mark.spelled_length hts)
    refine ⟨[], ?_, rfl⟩
    rw [List.append_nil]
    cases n with
    | zero => exact gives_pure _ _
    | succ n => exact gives_bind (gives_accept_not (hasSymbol_eq_false ht hcomma)) (gives_pure _ _)
  | cons p ps ih =>
    obtain ⟨n, rfl⟩ : ∃ m, n = m + 1 := ⟨n - 1, by simp only [List.length_cons] at hn; omega⟩
    obtain ⟨u, us, rfl, hu, -, -, hus⟩ := Mark.spelled_cons hts
    obtain ⟨vs, ws, rfl, hvs, hws⟩ := Mark.spelled_append hus
    have hstops : Stops 0 (ws ++ t :: k) := moreMarks_stops hws ⟨t, k, rfl, ht ▸ .sign close hclose⟩
    obtain ⟨e, he, hetree⟩ := hitem p (by simp) source (index + 1) u vs _ hvs hstops
    obtain ⟨es, hes, hestree⟩ := ih (fun q hq => hitem q (by simp [hq])) (index + 1 + vs.length) hws
      (by simpa using hn) (e :: done)
    refine ⟨e :: es, ?_, by rw [Expr.unplacedAll, Phrase.trees, hetree, hestree]⟩
    obtain ⟨v, vs, rfl, hv⟩ := spelled_head hvs
    rw [Cursor.facing_cons, Cursor.facing_append]
    refine gives_bind (gives_accept ((hasSymbol_iff u .comma).2 hu)) ?_
    rw [List.cons_append, List.append_assoc, facing_next (isFinish_eq_false hu) (by simp)]
    refine gives_bind (gives_at _ _) ?_
    have hvclose : v.hasSymbol close = false := not_close_of_begins hv hclose
    rw [show (facing source (index + 1) u (v :: vs ++ (ws ++ t :: k))).here = v from rfl, hvclose]
    refine gives_bind he ?_
    simpa using hes

theorem moreMarks_length (ps : List Phrase) : ps.length ≤ (Phrase.moreMarks ps).length := by
  induction ps with
  | nil => exact Nat.le_refl 0
  | cons p ps ih =>
    simp only [Phrase.moreMarks, List.cons_append, List.length_cons, List.length_append]
    omega

theorem itemsUntil_reads {item : Parse Expr} {close : Symbol} (what : String)
    (hclose : close ∈ [Symbol.rightParen, .rightBracket, .rightBrace, .comma]) (hcomma : close ≠ .comma)
    {ps : List Phrase} (hitem : ∀ p ∈ ps, Reads item 0 p) (source : Option (List Char)) (index : Nat)
    {previous t : Token} {ts k : List Token} (hts : Mark.Spelled previous (Phrase.listMarks ps) ts)
    (ht : t.content = .symbol close) (hk : k ≠ []) :
    ∃ es, Gives (itemsUntil item close what) (facing source index previous (ts ++ t :: k)) es
        (facing source (index + ts.length + 1) t k) ∧
      Expr.unplacedAll es = Phrase.trees ps := by
  cases ps with
  | nil =>
    obtain rfl : ts = [] := List.eq_nil_of_length_eq_zero (Mark.spelled_length hts)
    refine ⟨[], gives_bind (gives_at _ _) ?_, rfl⟩
    rw [List.nil_append, Cursor.facing_here, (hasSymbol_iff t close).2 ht]
    exact gives_bind (gives_pure _ _) (gives_bind (gives_consumeSymbol what ht hk) (gives_pure _ _))
  | cons p ps =>
    obtain ⟨us, vs, rfl, hus, hvs⟩ := Mark.spelled_append hts
    have hstops : Stops 0 (vs ++ t :: k) := moreMarks_stops hvs ⟨t, k, rfl, ht ▸ .sign close hclose⟩
    obtain ⟨e, he, hetree⟩ := hitem p (by simp) source index previous us _ (marks_loose hus) hstops
    have hrounds : ps.length ≤ (facing source (index + us.length) (us.getLastD previous) (vs ++ t :: k)).ahead + 1 := by
      have hlength := moreMarks_length ps
      rw [← Mark.spelled_length hvs] at hlength
      rw [Cursor.facing_ahead (by simp)]
      simp only [List.length_append, List.length_cons]
      omega
    obtain ⟨es, hes, hestree⟩ := itemsFrom_reads (k := k) hclose hcomma (fun q hq => hitem q (by simp [hq])) source
      (index + us.length) hvs ht hrounds [e]
    refine ⟨e :: es, gives_bind (gives_at _ _) ?_, by rw [Expr.unplacedAll, Phrase.trees, hetree, hestree]⟩
    obtain ⟨u, us, rfl, hu⟩ := spelled_head hus
    have huclose : u.hasSymbol close = false := not_close_of_begins hu hclose
    rw [show (facing source index previous (u :: us ++ vs ++ t :: k)).here = u from rfl, huclose, List.append_assoc,
      List.length_append, ← Nat.add_assoc]
    refine gives_bind he (gives_bind (gives_rounds _) (gives_bind hes ?_))
    exact gives_bind (gives_consumeSymbol what ht hk) (gives_pure _ _)

theorem moreEntryMarks_stops {es : List (String × Phrase)} {previous : Token} {ts k : List Token}
    (h : Mark.Spelled previous (Phrase.moreEntryMarks es) ts) (hk : Stops 0 k) : Stops 0 (ts ++ k) := by
  cases es with
  | nil =>
    obtain rfl : ts = [] := List.eq_nil_of_length_eq_zero (Mark.spelled_length h)
    exact hk
  | cons e es =>
    obtain ⟨t, us, rfl, ht, -⟩ := Mark.spelled_cons h
    exact ⟨t, us ++ k, rfl, ht ▸ .sign .comma (by simp)⟩

theorem not_newline_of_stops {k : List Token} {source : Option (List Char)} {index : Nat} {previous : Token}
    (h : Stops 0 k) : (facing source index previous k).here.content ≠ .newline := by
  obtain ⟨t, rest, rfl, ht⟩ := h
  rw [Cursor.facing_here]
  generalize t.content = content at ht
  cases ht with
  | finish => simp
  | sign s hs => simp
  | joiner op hop => exact absurd hop (by omega)

theorem entriesFrom_entry {expression : Parse Expr} {c c' c'' : Cursor} {key : String} {e : Expr} {n : Nat}
    {done entries : List (String × Expr)} (hkey : c.here.content = .text key)
    (hcolon : c.next.here.content = .symbol .colon) (hskip : c.next.next.here.content ≠ .newline)
    (he : Gives expression c.next.next e c') (hskip' : c'.here.content ≠ .newline)
    (h : Gives (do
      if ← acceptSymbol .comma then
        skipNewlines
        entriesFrom expression n ((key, e) :: done)
      else return ((key, e) :: done).reverse) c' entries c'') :
    Gives (entriesFrom expression (n + 1) done) c entries c'' := by
  refine gives_bind (gives_at _ _) ?_
  rw [show c.here.hasSymbol .rightBrace = false by simp [Token.hasSymbol, hkey]]
  refine gives_bind (gives_here _) ?_
  rw [show objectKey? c.here = some key by simp [objectKey?, hkey]]
  refine gives_bind (gives_advance c) (gives_bind (gives_consume _ ((hasSymbol_iff _ .colon).2 hcolon)) ?_)
  exact gives_bind (gives_skipNewlines hskip) (gives_bind he (gives_bind (gives_skipNewlines hskip') h))

theorem entriesFrom_reads {expression : Parse Expr} {es : List (String × Phrase)}
    (hread : ∀ e ∈ es, Reads expression 0 e.2) (source : Option (List Char)) (index : Nat) {g : Bool}
    {previous t : Token} {ts k : List Token} (hts : Mark.Spelled previous (Phrase.entryMarks g es) ts)
    (ht : t.content = .symbol .rightBrace) {n : Nat} (hn : es.length ≤ n) (done : List (String × Expr)) :
    ∃ entries, Gives (entriesFrom expression n done) (facing source index previous (ts ++ t :: k))
        (done.reverse ++ entries) (facing source (index + ts.length) (ts.getLastD previous) (t :: k)) ∧
      Expr.unplacedEntries entries = Phrase.entryTrees es := by
  induction es generalizing index g previous ts n done with
  | nil =>
    obtain rfl : ts = [] := List.eq_nil_of_length_eq_zero (Mark.spelled_length hts)
    refine ⟨[], ?_, rfl⟩
    rw [List.append_nil]
    cases n with
    | zero => exact gives_pure _ _
    | succ n =>
      refine gives_bind (gives_at _ _) ?_
      rw [List.nil_append, Cursor.facing_here, (hasSymbol_iff t .rightBrace).2 ht]
      exact gives_pure _ _
  | cons e es ih =>
    obtain ⟨key, p⟩ := e
    obtain ⟨n, rfl⟩ : ∃ m, n = m + 1 := ⟨n - 1, by simp only [List.length_cons] at hn; omega⟩
    obtain ⟨u, us, rfl, hu, -, -, hus⟩ := Mark.spelled_cons hts
    obtain ⟨v, vs, rfl, hv, -, -, hvs⟩ := Mark.spelled_cons hus
    obtain ⟨ws, xs, rfl, hws, hxs⟩ := Mark.spelled_append hvs
    have hstops : Stops 0 (xs ++ t :: k) := moreEntryMarks_stops hxs ⟨t, k, rfl, ht ▸ .sign .rightBrace (by simp)⟩
    obtain ⟨e, he, hetree⟩ := hread (key, p) (by simp) source (index + 1 + 1) v ws _ hws hstops
    obtain ⟨w, ws, rfl, hw⟩ := spelled_head hws
    have hufinish : u.isFinish = false := by simp [Token.isFinish, hu, quotedMark]
    have hnext : (facing source index previous (u :: v :: (w :: ws ++ (xs ++ t :: k)))).next.next =
        facing source (index + 1 + 1) v (w :: ws ++ (xs ++ t :: k)) := by
      rw [facing_next hufinish (by simp), facing_next (isFinish_eq_false hv) (by simp)]
    have hcolon : (facing source index previous (u :: v :: (w :: ws ++ (xs ++ t :: k)))).next.here.content =
        .symbol .colon := by
      rw [facing_next hufinish (by simp)]
      exact hv
    have hskip : (facing source index previous (u :: v :: (w :: ws ++ (xs ++ t :: k)))).next.next.here.content ≠
        .newline := by
      rw [hnext]
      exact not_newline_of_begins hw
    rw [← hnext] at he
    simp only [Cursor.facing_cons, Cursor.facing_append, List.cons_append, List.append_assoc] at he ⊢
    -- Behind the last entry stands the brace, behind another one a comma, after which the loop goes on.
    cases es with
    | nil =>
      obtain rfl : xs = [] := List.eq_nil_of_length_eq_zero (Mark.spelled_length hxs)
      refine ⟨[(key, e)], ?_, by rw [Expr.unplacedEntries, Phrase.entryTrees, hetree]; rfl⟩
      refine entriesFrom_entry hu hcolon hskip he (not_newline_of_stops hstops) ?_
      refine gives_bind (gives_accept_not (hasSymbol_eq_false ht (by decide))) ?_
      simpa using gives_pure _ _
    | cons entry es =>
      obtain ⟨x, xs, rfl, hx, -, -, hrest⟩ := Mark.spelled_cons hxs
      obtain ⟨y, ys, rfl, hy, -⟩ := Mark.spelled_cons hrest
      obtain ⟨entries, hentries, htrees⟩ := ih (fun e he => hread e (by simp_all)) (index + 1 + 1 + 1 + ws.length + 1)
        hrest (by simpa using hn) ((key, e) :: done)
      refine ⟨(key, e) :: entries, ?_, by rw [Expr.unplacedEntries, Phrase.entryTrees, hetree, htrees]⟩
      refine entriesFrom_entry hu hcolon hskip he (not_newline_of_stops hstops) ?_
      refine gives_bind (gives_acceptSymbol hx (by simp)) (gives_bind (gives_skipNewlines (by simp [hy, quotedMark])) ?_)
      rw [Cursor.facing_cons]
      simpa using hentries

theorem entryMarks_length (g : Bool) (es : List (String × Phrase)) : es.length ≤ (Phrase.entryMarks g es).length := by
  have hmore (es : List (String × Phrase)) : es.length ≤ (Phrase.moreEntryMarks es).length := by
    induction es with
    | nil => exact Nat.le_refl 0
    | cons e es ih =>
      simp only [Phrase.moreEntryMarks, List.cons_append, List.length_cons, List.length_append]
      omega
  cases es with
  | nil => exact Nat.le_refl 0
  | cons e es =>
    have h := hmore es
    simp only [Phrase.entryMarks, List.cons_append, List.length_cons, List.length_append]
    omega

variable {nested : Nested} {bound : Nat} {source : Option (List Char)} {index : Nat} {previous : Token}
  {ts k : List Token}

theorem spelled_enclosed {first last : Mark} {ms : List Mark} (h : Mark.Spelled previous (first :: ms ++ [last]) ts) :
    ∃ t us u, ts = t :: (us ++ [u]) ∧ t.content = first.content ∧ (first.glued = true → previous.adjacent t = true) ∧
      Mark.Spelled t ms us ∧ u.content = last.content := by
  obtain ⟨t, us, rfl, ht, -, hglued, hus⟩ := Mark.spelled_cons h
  obtain ⟨vs, ws, rfl, hvs, hws⟩ := Mark.spelled_append hus
  obtain ⟨u, ws, rfl, hu, -, -, hnil⟩ := Mark.spelled_cons hws
  obtain rfl : ws = [] := List.eq_nil_of_length_eq_zero (Mark.spelled_length hnil)
  exact ⟨t, vs, u, rfl, ht, hglued, hvs, hu⟩

def ReadsPrimary (nested : Nested) (ms : List Mark) (tree : Expr) : Prop :=
  ∀ source index previous ts k, Mark.Spelled previous ms ts → k ≠ [] →
    ∃ e, Gives (primary nested) (facing source index previous (ts ++ k)) e
        (facing source (index + ts.length) (ts.getLastD previous) k) ∧ e.unplaced = tree

theorem primary_single {m : Mark} {tree : Expr}
    (h : ∀ c : Cursor, c.here.content = m.content → c.here.isFinish = false ∧
      ∃ e, Gives (primary nested) c e c.next ∧ e.unplaced = tree) : ReadsPrimary nested [m] tree := by
  intro source index previous ts k hts hk
  obtain ⟨t, us, rfl, ht, -, -, hus⟩ := Mark.spelled_cons hts
  obtain rfl : us = [] := List.eq_nil_of_length_eq_zero (Mark.spelled_length hus)
  obtain ⟨hfinish, e, he, htree⟩ := h (facing source index previous (t :: k)) ht
  rw [facing_next (t := t) hfinish hk] at he
  exact ⟨e, he, htree⟩

def constantOf? : Content → Option Literal
  | .number x => some (.number x)
  | .text s => some (.text s)
  | .keyword .trueWord => some (.bool true)
  | .keyword .falseWord => some (.bool false)
  | .keyword .null => some .null
  | _ => none

theorem primary_constant {m : Mark} {value : Literal} (h : constantOf? m.content = some value) :
    ReadsPrimary nested [m] (.literal default value) := by
  refine primary_single fun c hc => ?_
  rw [← hc] at h
  unfold constantOf? at h
  split at h <;> cases h
  all_goals
    rename_i hcontent
    refine ⟨by simp [Token.isFinish, hcontent], .literal c.here.span _,
      gives_bind (gives_here c) (gives_bind (gives_get c) ?_), rfl⟩
    simp only [hcontent]
    exact gives_constant _ c

theorem primary_var (g : Bool) (name : String) (chars : List Char) :
    ReadsPrimary nested [⟨g, .var name, chars⟩] (.var default name) := by
  refine primary_single fun c hc => ⟨by simp [Token.isFinish, hc], .var c.here.span name, ?_, rfl⟩
  refine gives_bind (gives_here _) (gives_bind (gives_get _) ?_)
  simp only [hc]
  exact gives_bind (gives_advance c) (gives_pure _ _)

theorem primary_parens {p : Phrase} (hp : Reads nested.expression 0 p) :
    ReadsPrimary nested (.sign false .leftParen '(' :: p.marks true 0 ++ [.sign true .rightParen ')']) p.tree := by
  intro source index previous ts k hts hk
  obtain ⟨t, us, u, rfl, ht, -, hus, hu⟩ := spelled_enclosed hts
  obtain ⟨e, he, htree⟩ := hp source (index + 1) t us (u :: k) (marks_loose hus)
    ⟨u, k, rfl, hu ▸ .sign .rightParen (by simp)⟩
  refine ⟨e, gives_bind (gives_here _) (gives_bind (gives_get _) ?_), htree⟩
  simp only [List.cons_append, List.append_assoc, List.nil_append, Cursor.facing_here, ht]
  refine gives_bind (gives_advance _) ?_
  rw [facing_next (isFinish_eq_false ht) (by simp), Cursor.facing_cons, Cursor.facing_append]
  exact gives_bind he (gives_bind (gives_consumeSymbol _ hu hk) (gives_pure _ _))

theorem primary_array {ps : List Phrase} (hread : ∀ p ∈ ps, Reads nested.expression 0 p) :
    ReadsPrimary nested ((Phrase.array ps).marks false 6) (Phrase.array ps).tree := by
  intro source index previous ts k hts hk
  obtain ⟨t, us, u, rfl, ht, -, hus, hu⟩ := spelled_enclosed hts
  obtain ⟨es, hes, htrees⟩ := itemsUntil_reads "']'" (by simp) (by decide) hread source (index + 1) hus hu hk
  refine ⟨.array (Cursor.spanFrom (facing source (index + 1 + us.length + 1) u k) t) es, ?_,
    by rw [Expr.unplaced, htrees, Phrase.tree]⟩
  refine gives_bind (gives_here _) (gives_bind (gives_get _) ?_)
  simp only [List.cons_append, List.append_assoc, List.nil_append, Cursor.facing_here, ht]
  refine gives_bind (gives_advance _) ?_
  rw [facing_next (isFinish_eq_false ht) (by simp), Cursor.facing_cons, Cursor.facing_append]
  exact gives_bind hes (gives_bind (gives_spanFrom _ _) (gives_pure _ _))

theorem primary_object {es : List (String × Phrase)} (hread : ∀ e ∈ es, Reads nested.expression 0 e.2) :
    ReadsPrimary nested ((Phrase.object es).marks false 6) (Phrase.object es).tree := by
  intro source index previous ts k hts hk
  obtain ⟨t, us, u, rfl, ht, -, hus, hu⟩ := spelled_enclosed hts
  have hrounds : es.length ≤ (facing source (index + 1) t (us ++ u :: k)).ahead + 1 := by
    have hlength := entryMarks_length true es
    rw [← Mark.spelled_length hus] at hlength
    rw [Cursor.facing_ahead (by simp), List.length_append]
    omega
  obtain ⟨entries, hentries, htrees⟩ := entriesFrom_reads (k := k) hread source (index + 1) hus hu hrounds []
  have hskip : (facing source (index + 1) t (us ++ u :: k)).here.content ≠ .newline := by
    cases es with
    | nil =>
      obtain rfl : us = [] := List.eq_nil_of_length_eq_zero (Mark.spelled_length hus)
      simp [hu, Mark.sign]
    | cons e es =>
      obtain ⟨v, vs, rfl, hv, -⟩ := Mark.spelled_cons hus
      simp [hv, quotedMark]
  refine ⟨.object (Cursor.spanFrom (facing source (index + 1 + us.length + 1) u k) t) entries, ?_,
    by rw [Expr.unplaced, htrees, Phrase.tree]⟩
  refine gives_bind (gives_here _) (gives_bind (gives_get _) ?_)
  simp only [List.cons_append, List.append_assoc, List.nil_append, Cursor.facing_here, ht]
  refine gives_bind (gives_advance _) ?_
  rw [facing_next (isFinish_eq_false ht) (by simp), Cursor.facing_cons, Cursor.facing_append]
  refine gives_bind (gives_skipNewlines hskip) (gives_bind (gives_rounds _) (gives_bind hentries ?_))
  refine gives_bind (gives_skipNewlines (by simp [hu, Mark.sign])) (gives_bind (gives_consumeSymbol _ hu hk) ?_)
  exact gives_bind (gives_spanFrom _ _) (gives_pure _ _)

theorem primary_call {name : FunctionName} {ps : List Phrase} (hread : ∀ p ∈ ps, Reads nested.expression 0 p) :
    ReadsPrimary nested ((Phrase.call name ps).marks false 6) (Phrase.call name ps).tree := by
  intro source index previous ts k hts hk
  obtain ⟨t, us, rfl, ht, hlexeme, -, hus⟩ := Mark.spelled_cons hts
  obtain ⟨u, vs, v, rfl, hu, hglued, hvs, hv⟩ := spelled_enclosed hus
  obtain ⟨es, hes, htrees⟩ := itemsUntil_reads "')'" (by simp) (by decide) hread source (index + 1 + 1) hvs hv hk
  refine ⟨.call (Cursor.spanFrom (facing source (index + 1 + 1 + vs.length + 1) v k) t) t.lexeme es, ?_, ?_⟩
  · refine gives_bind (gives_here _) (gives_bind (gives_get _) ?_)
    have hopens : (u.hasSymbol .leftParen && t.adjacent u) = true := by
      rw [(hasSymbol_iff u .leftParen).2 hu, hglued rfl]
      rfl
    have htfinish : t.isFinish = false := by simp [Token.isFinish, ht]
    simp only [List.cons_append, List.append_assoc, List.nil_append, Cursor.facing_here, ht, Cursor.facing_following,
      hopens, if_true]
    refine gives_bind (gives_advance _) ?_
    rw [facing_next htfinish (by simp), Cursor.facing_cons, Cursor.facing_cons, Cursor.facing_append]
    refine gives_bind (gives_bind (gives_consumeSymbol _ hu (by simp)) hes) ?_
    exact gives_bind (gives_spanFrom _ _) (gives_pure _ _)
  · rw [Expr.unplaced, htrees, Phrase.tree, hlexeme]
    rfl

theorem primary_reads (hnested : ReadsUpTo bound nested.expression 0) (p : Phrase)
    (hplain : p.isAccess = false)
    (hlength : (p.marks false 6).length ≤ bound + 1) : ReadsPrimary nested (p.marks false 6) p.tree := by
  by_cases hlevel : p.level < 6
  · rw [Phrase.parens_marks hlevel] at hlength ⊢
    refine primary_parens (hnested p ?_)
    rw [List.length_append, List.length_cons, Phrase.marks_length] at hlength
    omega
  match p with
  | .number digits => exact primary_constant rfl
  | .text s => exact primary_constant rfl
  | .bool true => exact primary_constant rfl
  | .bool false => exact primary_constant rfl
  | .null => exact primary_constant rfl
  | .var name => exact primary_var false name.text _
  | .unary op operand => exact absurd (show 5 < 6 by decide) hlevel
  | .joined op left right => exact absurd (Nat.lt_succ_of_lt op.level_lt) hlevel
  | .array elements =>
    refine primary_array fun q hq => hnested q ?_
    have hle := Phrase.length_le_listMarks hq
    simp only [Phrase.marks, List.length_append, List.length_cons] at hlength
    omega
  | .object entries =>
    refine primary_object fun e he => hnested e.2 ?_
    have hle := Phrase.length_le_entryMarks true he
    simp only [Phrase.marks, List.length_append, List.length_cons] at hlength
    omega
  | .call name arguments =>
    refine primary_call fun q hq => hnested q ?_
    have hle := Phrase.length_le_listMarks hq
    simp only [Phrase.marks, List.length_append, List.length_cons] at hlength
    omega
  | .member base name => simp [Phrase.isAccess] at hplain
  | .index base key => simp [Phrase.isAccess] at hplain

theorem accessorsFrom_key {expression : Parse Expr} {start : Token} {c c' : Cursor} {base key : Expr} {n : Nat}
    (hkey : Gives (accessor? expression) c (some key) c') {result : Expr} {c'' : Cursor}
    (h : Gives (accessorsFrom expression start n (.property (c'.spanFrom start) base key)) c' result c'') :
    Gives (accessorsFrom expression start (n + 1) base) c result c'' :=
  gives_bind hkey (gives_bind (gives_spanFrom start c') h)

theorem not_closes_access {s : Symbol} (hs : s = .dot ∨ s = .leftBracket) : ¬ (Content.symbol s).Closes 6 := by
  intro h
  generalize hc : Content.symbol s = content at h
  cases h with
  | finish => simp at hc
  | sign s' hs' =>
    obtain rfl : s = s' := by simpa using hc
    rcases hs with rfl | rfl <;> simp at hs'
  | joiner op hop =>
    obtain h | h | ⟨s', hs', h⟩ := op.content_cases
    · simp [h] at hc
    · simp [h] at hc
    · obtain rfl : s = s' := by simpa [h] using hc
      rcases hs with rfl | rfl <;> simp at hs'

theorem accessorsFrom_stop {expression : Parse Expr} {start : Token} {c : Cursor} (base : Expr) (n : Nat)
    (h : c.here.content.Closes 6) : Gives (accessorsFrom expression start n base) c base c := by
  have hnone (s : Symbol) (hs : s = .dot ∨ s = .leftBracket) : c.here.hasSymbol s = false := by
    rw [Bool.eq_false_iff, ne_eq, hasSymbol_iff]
    intro hc
    rw [hc] at h
    exact not_closes_access hs h
  cases n with
  | zero => exact gives_pure base c
  | succ n =>
    refine gives_bind (a := none) (gives_bind (gives_attached c) ?_) (gives_pure base c)
    cases c.previous.adjacent c.here with
    | false => exact gives_pure none c
    | true =>
      refine gives_bind (gives_accept_not (hnone .dot (by simp))) ?_
      exact gives_bind (gives_accept_not (hnone .leftBracket (by simp))) (gives_pure none c)

theorem accessor_member {expression : Parse Expr} {t u : Token} {name : Name} (hadjacent : previous.adjacent t = true)
    (ht : t.content = .symbol .dot) (hu : u.content = Token.wordContent name.chars)
    (hlexeme : u.lexeme = String.ofList name.chars) (hk : k ≠ []) :
    Gives (accessor? expression) (facing source index previous (t :: u :: k)) (some (.literal u.span (.text name.text)))
      (facing source (index + 1 + 1) u k) := by
  refine gives_bind (gives_attached _) ?_
  rw [Cursor.facing_previous, Cursor.facing_here, hadjacent]
  refine gives_bind (gives_acceptSymbol ht (by simp)) ?_
  have hname : u.isNameLike = true ∧ u.isFinish = false := by
    unfold Token.wordContent at hu
    split at hu <;> simp [Token.isNameLike, Token.isKeyword, Token.isFinish, hu]
  refine gives_map some (gives_bind (gives_here _) ?_)
  rw [Cursor.facing_here, hname.1, hlexeme, ← facing_next hname.2 hk]
  exact gives_constant _ _

theorem accessor_index {expression : Parse Expr} (source : Option (List Char)) (index : Nat) {t u : Token} {p : Phrase}
    (hadjacent : previous.adjacent t = true) (ht : t.content = .symbol .leftBracket) (hp : Reads expression 0 p) (hts : Mark.Spelled t (p.marks true 0) ts)
    (hu : u.content = .symbol .rightBracket) (hk : k ≠ []) :
    ∃ e, Gives (accessor? expression) (facing source index previous (t :: (ts ++ u :: k))) (some e)
      (facing source (index + 1 + ts.length + 1) u k) ∧ e.unplaced = p.tree := by
  obtain ⟨e, he, htree⟩ := hp source (index + 1) t ts (u :: k) (marks_loose hts) ⟨u, k, rfl, hu ▸ .sign .rightBracket (by simp)⟩
  refine ⟨e, gives_bind (gives_attached _) ?_, htree⟩
  rw [Cursor.facing_previous, Cursor.facing_here, hadjacent]
  refine gives_bind (gives_accept_not (hasSymbol_eq_false ht (by decide))) ?_
  refine gives_bind (gives_acceptSymbol ht (by simp)) (gives_bind he (gives_bind (gives_consumeSymbol _ hu hk) ?_))
  exact gives_pure _ _

theorem accessed_spine (hnested : ReadsUpTo bound nested.expression 0) (p : Phrase)
    (hlength : (p.marks false 6).length ≤ bound + 1) (source : Option (List Char)) (index : Nat) {previous : Token}
    {ts k : List Token} (hts : Mark.Spelled previous (p.marks false 6) ts) (hk : k ≠ []) :
    ∃ e n, k.length ≤ n ∧ e.unplaced = p.tree ∧ ∀ result c,
      Gives (accessorsFrom nested.expression (facing source index previous (ts ++ k)).here n e)
          (facing source (index + ts.length) (ts.getLastD previous) k) result c →
        Gives (accessed nested) (facing source index previous (ts ++ k)) result c := by
  cases hplain : p.isAccess with
  | false =>
    obtain ⟨e, he, htree⟩ := primary_reads hnested p hplain hlength source index previous ts k hts hk
    refine ⟨e, k.length, Nat.le_refl _, htree, fun result c hresult => ?_⟩
    refine gives_bind (gives_here _) (gives_bind he (gives_bind (gives_rounds _) ?_))
    rwa [Cursor.facing_ahead hk]
  | true =>
    match p, hplain with
    | .member base name, _ =>
      rw [Phrase.marks] at hts hlength
      obtain ⟨us, vs, rfl, hus, hvs⟩ := Mark.spelled_append hts
      obtain ⟨t, vs, rfl, ht, -, hglued, hvs⟩ := Mark.spelled_cons hvs
      obtain ⟨u, vs, rfl, hu, hlexeme, -, hvs⟩ := Mark.spelled_cons hvs
      obtain rfl : vs = [] := List.eq_nil_of_length_eq_zero (Mark.spelled_length hvs)
      rw [List.length_append] at hlength
      obtain ⟨e, n, hn, htree, hspine⟩ :=
        accessed_spine hnested base (by omega) source index hus (k := t :: u :: k) (by simp)
      obtain ⟨n, rfl⟩ : ∃ m, n = m + 1 := ⟨n - 1, by simp only [List.length_cons] at hn; omega⟩
      simp only [List.append_assoc, List.cons_append, List.nil_append, Cursor.facing_append, Cursor.facing_cons]
      refine ⟨.property (Cursor.spanFrom (facing source (index + us.length + 1 + 1) u k)
        (facing source index previous (us ++ t :: u :: k)).here) e (.literal u.span (.text name.text)), n, ?_, ?_,
        fun result c hresult => ?_⟩
      · simp only [List.length_cons] at hn
        omega
      · rw [Expr.unplaced, htree, Expr.unplaced, Phrase.tree]
      · exact hspine result c (accessorsFrom_key (accessor_member (hglued rfl) ht hu hlexeme hk) hresult)
    | .index base key, _ =>
      rw [Phrase.marks, List.append_assoc] at hts hlength
      obtain ⟨us, vs, rfl, hus, hvs⟩ := Mark.spelled_append hts
      obtain ⟨t, vs, u, rfl, ht, hglued, hvs, hu⟩ := spelled_enclosed hvs
      simp only [List.length_append, List.cons_append, List.length_cons, Phrase.marks_length key true] at hlength
      obtain ⟨e, n, hn, htree, hspine⟩ :=
        accessed_spine hnested base (by omega) source index hus (k := t :: (vs ++ u :: k)) (by simp)
      obtain ⟨n, rfl⟩ : ∃ m, n = m + 1 := ⟨n - 1, by simp only [List.length_cons] at hn; omega⟩
      obtain ⟨i, hi, hitree⟩ := accessor_index source (index + us.length) (hglued rfl) ht
        (hnested key (by omega)) hvs hu hk
      simp only [List.append_assoc, List.cons_append, List.nil_append, Cursor.facing_append, Cursor.facing_cons]
      refine ⟨.property (Cursor.spanFrom (facing source (index + us.length + 1 + vs.length + 1) u k)
        (facing source index previous (us ++ t :: (vs ++ u :: k))).here) e i, n, ?_, ?_, fun result c hresult => ?_⟩
      · simp only [List.length_cons, List.length_append] at hn
        omega
      · rw [Expr.unplaced, htree, hitree, Phrase.tree]
      · exact hspine result c (accessorsFrom_key hi hresult)

theorem accessed_reads (hnested : ReadsUpTo bound nested.expression 0) : ReadsUpTo (bound + 1) (accessed nested) 6 := by
  intro p hlength source index previous ts k hts hk
  obtain ⟨e, n, -, htree, hspine⟩ := accessed_spine hnested p hlength source index hts hk.ne_nil
  obtain ⟨t, k, rfl, ht⟩ := hk
  exact ⟨e, hspine e _ (accessorsFrom_stop e n ht), htree⟩

theorem unary_reads (hunary : ReadsUpTo bound nested.unary 5) (haccessed : ReadsUpTo (bound + 1) (accessed nested) 6) :
    ReadsUpTo (bound + 1) (unaryLevel nested) 5 := by
  intro p hlength source index previous ts k hts hk
  by_cases hlevel : p.level = 5
  · match p, hlevel with
    | .joined op left right, hlevel => exact absurd hlevel (Nat.ne_of_lt op.level_lt)
    | .unary op operand, _ =>
      obtain ⟨t, us, rfl, ht, -, -, hus⟩ := Mark.spelled_cons hts
      have hoperator : unaryOperator? t = some op ∧ t.isFinish = false := by
        cases op <;> simp [unaryOperator?, Token.isFinish, ht, unaryMark]
      have hbound : (operand.marks false 5).length ≤ bound := by
        rw [← Phrase.marks_length operand true]
        exact Nat.le_of_succ_le_succ hlength
      obtain ⟨e, he, htree⟩ := hunary operand hbound source (index + 1) t us k (marks_loose hus) hk
      refine ⟨.unary (Cursor.spanFrom (facing source (index + 1 + us.length) (us.getLastD t) k) t) op e,
        gives_bind (gives_here _) ?_, by rw [Expr.unplaced, htree, Phrase.tree]⟩
      rw [List.cons_append, Cursor.facing_here, hoperator.1, Cursor.facing_cons]
      refine gives_bind (gives_advance _) ?_
      rw [facing_next hoperator.2 (by simp [hk.ne_nil])]
      exact gives_bind he (gives_bind (gives_spanFrom _ _) (gives_pure _ _))
  · rw [p.marks_succ false 5 hlevel] at hts hlength
    obtain ⟨e, he, htree⟩ := haccessed p hlength source index previous ts k hts (hk.mono (by decide))
    obtain ⟨t, us, rfl, ht⟩ := spelled_head hts
    have hoperator : unaryOperator? t = none := by
      unfold unaryOperator?
      split <;> simp_all [Content.begins]
    refine ⟨e, gives_bind (gives_here _) ?_, htree⟩
    rw [List.cons_append, Cursor.facing_here, hoperator]
    exact he

theorem nested_reads (n : Nat) : ReadsUpTo n (Parse.nested n).expression 0 ∧ ReadsUpTo n (Parse.nested n).unary 5 := by
  induction n with
  | zero =>
    have hempty (parser : Parse Expr) (wanted : Nat) : ReadsUpTo 0 parser wanted := by
      intro p hlength
      obtain ⟨m, ms, hm, -⟩ := p.marks_head wanted
      simp [hm] at hlength
    exact ⟨hempty _ 0, hempty _ 5⟩
  | succ n ih =>
    have hunary := unary_reads ih.2 (accessed_reads ih.1)
    have hproduct := chain_reads product_table (by decide) hunary
    have hsum := chain_reads sum_table (by decide) hproduct
    have hcomparison := chain_reads comparison_table (by decide) hsum
    have hand := chain_reads (logic_table .and) (by decide) hcomparison
    exact ⟨chain_reads (logic_table .or) (by decide) hand, hunary⟩

end Parse

/-- A printed phrase is read back as its tree, up to the end of the text. -/
theorem parseExpression_print (p : Phrase) (file source : Option String) :
    ∃ e i last, parseExpression (tokenize p.print file) source = .ok (e, i) ∧ e.unplaced = p.tree ∧
      (tokenize p.print file)[i]? = some last ∧ last.isFinish = true := by
  obtain ⟨ts, last, htokens, hlast, hts⟩ := p.tokenize_print file
  have hlength : (p.marks false 0).length ≤ (ts ++ [last]).length + 1 := by
    rw [← p.marks_length true, ← Mark.spelled_length hts, List.length_append]
    omega
  have hstops : Stops 0 [last] := by
    refine ⟨last, [], rfl, ?_⟩
    rw [(Token.isFinish_iff last).1 hlast]
    exact .finish
  obtain ⟨e, he, htree⟩ := (Parse.nested_reads _).1 p hlength (source.map String.toList) 0
    ((ts ++ [last]).headD ⟨.finish, "", default⟩) ts [last] (Parse.marks_loose hts) hstops
  have hcursor : Cursor.ofTokens source (ts ++ [last]) =
      Cursor.facing (source.map String.toList) 0 ((ts ++ [last]).headD ⟨.finish, "", default⟩) (ts ++ [last]) := by
    cases ts <;> rfl
  refine ⟨e, ts.length, last, ?_, htree, by simp [htokens], hlast⟩
  unfold parseExpression
  rw [htokens, hcursor, he]
  simp [Cursor.facing]

end DeskScript
