import DeskScript.Machine.Step
import DeskScript.Proofs.Syntax.AbreastMessage
import DeskScript.Proofs.Token.Pieces
import DeskScript.Proofs.Token.Tiling
import Mathlib.Data.List.TakeWhile

set_option autoImplicit false

/-!
# Messages as they are written

A message is refused exactly if a malformed token stands in front of the first token that stops it, and then for the first
of them. Otherwise it is read up to a token that stops it. Raw text stands in the result character by character: where
none of its names is declared, its value is the source from the first to the last token of the message. Main statement:
`message_faithful`.
-/

namespace DeskScript

open DeskScript.Text Token

def Segment.names : Segment → List String
  | text _ => []
  | reference name _ => [name]

namespace Expr

mutual

def names : Expr → List String
  | literal _ _ => []
  | var _ name => [name]
  | binary _ _ left right => names left ++ names right
  | logic _ _ left right => names left ++ names right
  | unary _ _ operand => names operand
  | call _ _ arguments => namesAll arguments
  | array _ elements => namesAll elements
  | object _ entries => namesEntries entries
  | template _ segments => segments.flatMap Segment.names
  | property _ base key => names base ++ names key

def namesAll : List Expr → List String
  | [] => []
  | e :: rest => names e ++ namesAll rest

def namesEntries : List (String × Expr) → List String
  | [] => []
  | (_, e) :: rest => names e ++ namesEntries rest

end

end Expr

namespace Run

variable {r : Run} {scope : ScopeId}

/-- Where no name is declared, a template is its pieces one after another. -/
theorem template_undeclared {isStart : Char → Bool} {pieces : List Piece} (hpieces : ∀ p ∈ pieces, p.Dotted isStart)
    (hnames : ∀ name ∈ (pieces.map Parse.pieceSegment).flatMap Segment.names, r.scopes.lookup? scope name = none) :
    r.template scope (pieces.map Parse.pieceSegment) = .ok (String.ofList (pieces.flatMap Piece.raw)) := by
  induction pieces with
  | nil => rfl
  | cons p pieces ih =>
    obtain ⟨hp, hmore⟩ := List.forall_mem_cons.1 hpieces
    rw [List.map_cons, List.flatMap_cons, List.forall_mem_append] at hnames
    obtain ⟨hname, hnames⟩ := hnames
    rw [List.map_cons, List.flatMap_cons, String.ofList_append]
    cases p with
    | text s =>
      rw [Parse.pieceSegment, template, ih hmore hnames, Piece.raw, String.ofList_toList]
      rfl
    | reference path =>
      obtain ⟨d, hd, -⟩ := hp path rfl
      subst hd
      rw [Parse.pieceSegment, Parse.pathSegment_dotted] at hname ⊢
      have hwritten : ".".intercalate (("$" ++ d.first.text) :: d.more.map Name.text) =
          String.ofList (Piece.reference d.text).raw := by
        rw [← String.toList_inj, d.intercalate_names]
        simp [Piece.raw, DottedName.text]
      rw [template, hname d.first.text List.mem_cons_self, ih hmore hnames, hwritten]
      rfl

/-- Raw text of which no name is declared stands as it is written. -/
theorem evaluate_rawMessage (d : Desk) (stack : List Frame) (span : Span) (cs : List Char)
    (hnames : ∀ name ∈ (Parse.rawMessage span cs).names, r.scopes.lookup? scope name = none) :
    r.evaluate d scope stack (Parse.rawMessage span cs) = .value r d (.str (String.ofList cs)) stack := by
  have hdotted := piecesOf_dotted Parse.isNameStart_of_isRawStart [] (by simp) [] cs
  have hwritten := piecesOf_raw Parse.isRawStart [] [] cs
  rw [← rawPieces_eq] at hdotted hwritten
  unfold Parse.rawMessage at hnames ⊢
  dsimp only at hnames ⊢
  split at hnames
  · rename_i hany
    rw [if_pos hany, evaluate, template_undeclared hdotted (by rwa [Expr.names] at hnames), hwritten]
    rfl
  · rename_i hany
    rw [if_neg hany, evaluate]
    rfl

end Run

namespace Cursor

variable {c : Cursor} {stops : Token → Bool}

def untilStop (c : Cursor) (stops : Token → Bool) : List Token := c.tokens.takeWhile (fun t => !stops t)

theorem going_of_mem_untilStop {t : Token} (h : t ∈ c.untilStop stops) : stops t = false := by
  simpa using List.mem_takeWhile_imp h

/-- Behind the tokens of a message stands one that stops it. -/
theorem Ends.exists_stop (h : c.Ends) (hstops : ∀ t : Token, t.endsStatement = true → stops t = true) :
    ∃ t more, c.tokens = c.untilStop stops ++ t :: more ∧ stops t = true := by
  have hsplit := List.takeWhile_append_dropWhile (p := fun t => !stops t) (l := c.tokens)
  have hhead := List.head?_dropWhile_not (fun t => !stops t) c.tokens
  cases hbehind : c.tokens.dropWhile (fun t => !stops t) with
  | nil =>
    obtain ⟨ts, last, hts, hlast⟩ := h
    have hmem : last ∈ c.tokens := by simp [hts]
    have hgo := List.dropWhile_eq_nil_iff.1 hbehind last hmem
    rw [Token.isFinish_iff] at hlast
    simp [hstops last (by simp [Token.endsStatement, hlast])] at hgo
  | cons t more =>
    rw [hbehind] at hsplit hhead
    exact ⟨t, more, hsplit.symm, by simpa using hhead⟩

end Cursor

namespace Parse

variable {stops : Token → Bool} {expression : Parse Expr}

/-- No expression spans the message at a cursor. -/
def FallsBack (expression : Parse Expr) (stops : Token → Bool) (c : Cursor) : Prop :=
  stops c.here = false ∧ ∀ e c', expression.run c = .ok (e, c') → stops c'.here = false

theorem run_expected_fault {α : Type} (what : String) {c : Cursor} {f : LexicalFault} (hc : c.here.content = .fault f) :
    (expected what : Parse α).run c = .error ⟨.lexical f, c.here.span⟩ := by
  have hcause : c.complaint what = .lexical f := by simp [Cursor.complaint, hc]
  rw [← hcause]
  rfl

/-- Where an expression spans the message, none of its tokens is malformed. -/
theorem sound_of_spans (hexpression : Phrasal expression) {c c' : Cursor} (hc : c.Ends) {e : Expr}
    (hrun : expression.run c = .ok (e, c')) (hstop : stops c'.here = true) :
    ∀ t ∈ c.untilStop stops, t.isFault = false := by
  obtain ⟨ts, hts, -, hsealed⟩ := hexpression.passes hc hrun
  intro t ht
  refine hsealed.sound t ?_
  have hstopped : c'.tokens.takeWhile (fun t => !stops t) = [] := by
    rw [Cursor.tokens, List.takeWhile_cons_of_neg (by simp [hstop])]
  rw [Cursor.untilStop, hts, List.takeWhile_append, hstopped, List.append_nil] at ht
  split at ht
  · exact ht
  · exact (List.takeWhile_sublist _).mem ht

/-- A message that is no raw text is empty or an expression. -/
theorem gives_message_parsed (hexpression : Phrasal expression) {c : Cursor} (hc : c.Ends)
    (hraw : ¬ FallsBack expression stops c) : ∃ e c', Gives (message expression stops) c e c' ∧
      stops c'.here = true ∧ ∃ passed, c.tokens = passed ++ c'.tokens := by
  cases hempty : stops c.here with
  | true =>
    refine ⟨.literal c.here.span (.text ""), c, gives_bind (gives_here c) ?_, hempty, [], rfl⟩
    rw [hempty]
    exact gives_pure _ c
  | false =>
    obtain ⟨e, c', hrun, hstop⟩ : ∃ e c', expression.run c = .ok (e, c') ∧ stops c'.here = true := by
      by_contra hnone
      refine hraw ⟨hempty, fun e c' hrun => Bool.eq_false_iff.2 fun hstop => hnone ⟨e, c', hrun, hstop⟩⟩
    obtain ⟨passed, hpassed, -⟩ := hexpression.passes hc hrun
    exact ⟨e, c', run_message_whole hempty hrun hstop, hstop, passed, hpassed⟩

section

variable (hstops : ∀ t : Token, t.endsStatement = true → stops t = true) {c : Cursor} (hc : c.Ends)
include hstops

theorem isFinish_of_going {t : Token} (hgo : stops t = false) : t.isFinish = false := by
  rw [Bool.eq_false_iff] at hgo ⊢
  intro hfinish
  refine hgo (hstops t ?_)
  rw [Token.isFinish_iff] at hfinish
  simp [Token.endsStatement, hfinish]

include hc

/-- Sound tokens that do not stop a message are passed. -/
theorem run_skipMessage {ts k : List Token} (htokens : c.tokens = ts ++ k)
    (hts : ∀ t ∈ ts, stops t = false ∧ t.isFault = false) (n : Nat) (lexemes : List String) : ∃ lexemes' c',
      (skipMessage stops (ts.length + n) lexemes).run c = (skipMessage stops n lexemes').run c' ∧ c'.tokens = k ∧
        c'.previous = ts.getLastD c.previous := by
  induction ts generalizing c lexemes with
  | nil => exact ⟨lexemes, c, by rw [List.length_nil, Nat.zero_add], htokens, rfl⟩
  | cons t ts ih =>
    obtain ⟨⟨hgo, hsound⟩, hmore⟩ := List.forall_mem_cons.1 hts
    obtain ⟨hhere, -⟩ : c.here = t ∧ c.rest = ts ++ k := List.cons.inj htokens
    subst hhere
    have hfinish := isFinish_of_going hstops hgo
    have hnext := hc.next_tokens hfinish
    have hbehind : c.next.tokens = ts ++ k := (List.cons.inj (hnext.symm.trans htokens)).2
    obtain ⟨lexemes', c', hrun, hc', hprevious⟩ := ih (hc.passed hnext) hbehind hmore (c.here.lexeme :: lexemes)
    refine ⟨lexemes', c', ?_, hc', ?_⟩
    · rw [List.length_cons, Nat.add_right_comm, skipMessage, run_bind_gives (gives_here c), hgo, hsound,
        if_neg Bool.false_ne_true, if_neg Bool.false_ne_true, run_bind_gives (gives_advance c), hrun]
    · rw [hprevious, hc.next_previous hfinish, List.getLastD_cons]

/-- Raw tokens are passed up to one that stops the message. -/
theorem gives_skipMessage {ts more : List Token} {t : Token} (htokens : c.tokens = ts ++ t :: more)
    (hts : ∀ t ∈ ts, stops t = false ∧ t.isFault = false) (ht : stops t = true) : ∃ lexemes c',
      Gives (skipMessage stops (c.ahead + 1) []) c lexemes c' ∧ c'.tokens = t :: more ∧
        c'.previous = ts.getLastD c.previous := by
  obtain ⟨lexemes, c', hrun, hc', hprevious⟩ := run_skipMessage hstops hc htokens hts (more.length + 1) []
  have hlength : c.ahead + 1 = ts.length + (more.length + 1) := by
    rw [← List.length_cons, ← List.length_append, ← htokens]
    rfl
  have hhere : stops c'.here = true := by rwa [(List.cons.inj hc').1]
  refine ⟨lexemes, c', ?_, hc', hprevious⟩
  rw [Gives, hlength, hrun, skipMessage, run_bind_gives (gives_here c'), hhere, if_pos rfl]
  rfl

theorem run_skipMessage_fault {ts more : List Token} {t : Token} (htokens : c.tokens = ts ++ t :: more)
    (hts : ∀ t ∈ ts, stops t = false ∧ t.isFault = false) (ht : stops t = false) {f : LexicalFault}
    (hf : t.content = .fault f) : (skipMessage stops (c.ahead + 1) []).run c = .error ⟨.lexical f, t.span⟩ := by
  obtain ⟨lexemes, c', hrun, hc', -⟩ := run_skipMessage hstops hc htokens hts (more.length + 1) []
  have hlength : c.ahead + 1 = ts.length + (more.length + 1) := by
    rw [← List.length_cons, ← List.length_append, ← htokens]
    rfl
  obtain rfl : c'.here = t := (List.cons.inj hc').1
  have hfault : c'.here.isFault = true := by simp [isFault, hf]
  rw [hlength, hrun, skipMessage, run_bind_gives (gives_here c'), ht, hfault, if_neg Bool.false_ne_true, if_pos rfl,
    run_expected_fault _ hf]

/-- The first malformed token of a message is refused. -/
theorem run_message_refused (hexpression : Phrasal expression) {t : Token}
    (hfind : (c.untilStop stops).find? Token.isFault = some t) : ∃ f, t.content = .fault f ∧
      (message expression stops).run c = .error ⟨.lexical f, t.span⟩ := by
  obtain ⟨u, more, htokens, -⟩ := hc.exists_stop hstops
  obtain ⟨hfault, ts, us, hts, hsound⟩ := List.find?_eq_some_iff_append.1 hfind
  have hmem : t ∈ c.untilStop stops := by simp [hts]
  obtain ⟨f, hf⟩ : ∃ f, t.content = .fault f := by
    unfold Token.isFault at hfault
    split at hfault
    · exact ⟨_, ‹_›⟩
    · contradiction
  have hgo : stops c.here = false := by
    cases hhere : stops c.here with
    | false => rfl
    | true => simp [Cursor.untilStop, Cursor.tokens, hhere] at hmem
  have hraw {e : Expr} {c' : Cursor} (hrun : expression.run c = .ok (e, c')) : stops c'.here = false := by
    by_contra hstop
    rw [sound_of_spans hexpression hc hrun (by simpa using hstop) t hmem] at hfault
    contradiction
  have hpassed : ∀ u ∈ ts, stops u = false ∧ u.isFault = false := fun u hu =>
    ⟨Cursor.going_of_mem_untilStop (c := c) (by simp [hts, hu]), by simpa using hsound u hu⟩
  rw [hts, List.append_assoc, List.cons_append] at htokens
  refine ⟨f, hf, ?_⟩
  rw [run_message_raw hgo hraw, run_bind_gives (gives_rounds c), StateT.run_bind,
    run_skipMessage_fault hstops hc htokens hpassed (Cursor.going_of_mem_untilStop hmem) hf]
  rfl

/-- Raw text is the source from the first to the last token of the message. -/
theorem gives_message_raw {source : List Char} (hsource : c.source = some source)
    (hfind : (c.untilStop stops).find? Token.isFault = none) (hraw : FallsBack expression stops c)
    (hle : ∀ t ∈ c.untilStop stops, c.here.span.start.offset ≤ t.span.stop.offset) : ∃ span last c',
      Gives (message expression stops) c
        (rawMessage span (Text.between source c.here.span.start.offset last.span.stop.offset)) c' ∧
      (c.untilStop stops).getLast? = some last ∧ c.tokens = c.untilStop stops ++ c'.tokens ∧ stops c'.here = true := by
  obtain ⟨t, more, htokens, ht⟩ := hc.exists_stop hstops
  have hts : ∀ u ∈ c.untilStop stops, stops u = false ∧ u.isFault = false := fun u hu =>
    ⟨Cursor.going_of_mem_untilStop hu, by simpa using List.find?_eq_none.1 hfind u hu⟩
  obtain ⟨lexemes, c', hskip, hc', hprevious⟩ := gives_skipMessage hstops hc htokens hts ht
  have hhere : c.here ∈ c.untilStop stops := by simp [Cursor.untilStop, Cursor.tokens, hraw.1]
  have hlast : (c.untilStop stops).getLast? = some c'.previous := by
    rw [hprevious, List.getLastD_eq_getLast?, List.getLast?_eq_some_getLast (List.ne_nil_of_mem hhere),
      Option.getD_some]
  obtain ⟨hfrom, hto⟩ := Cursor.spanFrom_of_le (hle c'.previous (List.mem_of_getLast? hlast))
  refine ⟨c'.spanFrom c.here, c'.previous, c', ?_, hlast, by rw [htokens, hc'], by rwa [(List.cons.inj hc').1]⟩
  rw [Gives, run_message_raw hraw.1 (hraw.2 _ _), run_bind_gives (gives_rounds c), run_bind_gives hskip,
    run_bind_gives (gives_spanFrom _ _), hsource]
  have htext : rawText (some source) (c'.spanFrom c.here) lexemes.reverse =
      Text.between source c.here.span.start.offset c'.previous.span.stop.offset := by
    rw [← hfrom, ← hto]
    rfl
  rw [htext]
  rfl

end

end Parse

/-- A token of a source begins before it ends, and before any token behind it ends. -/
theorem Token.TilesFrom.start_le_stop {source : List Char} {tokens before rest : List Token} {start t : Token}
    (h : TilesFrom source 0 0 tokens) (htokens : tokens = before ++ start :: rest) (hstart : start.isFinish = false)
    (ht : t ∈ start :: rest) (hfinish : t.isFinish = false) : start.span.start.offset ≤ t.span.stop.offset := by
  have hcovers := h.covers start (by simp [htokens]) hstart
  rcases List.mem_cons.1 ht with rfl | hbehind
  · exact Nat.le_of_lt hcovers
  · have hcovers' := h.covers t (by simp [htokens, hbehind]) hfinish
    have hordered := h.ordered
    rw [htokens, List.pairwise_append] at hordered
    have := List.rel_of_pairwise_cons hordered.2.1 hbehind
    omega

theorem Token.TilesFrom.cursor_ends {source : List Char} {tokens before : List Token} (h : TilesFrom source 0 0 tokens)
    {c : Cursor} (htokens : tokens = before ++ c.tokens) : c.Ends := by
  obtain ⟨body, last, hbody, hlast, -⟩ := h.ends
  have hend := congrArg List.getLast? (hbody.symm.trans htokens)
  rw [List.getLast?_concat, List.getLast?_append_of_ne_nil _ (by simp [Cursor.tokens])] at hend
  obtain ⟨ts, hts⟩ := List.getLast?_eq_some_iff.1 hend.symm
  exact ⟨ts, last, hts, hlast⟩

/-- A message is refused exactly if a malformed token stands in front of its end, and then for the first of these. If it
is not, it is read to a token that stops it, and raw text of which no name is declared has the value that is written. -/
theorem message_faithful (source : String) (file : Option String) (n : Nat) {stops : Token → Bool}
    (hstops : ∀ t : Token, t.endsStatement = true → stops t = true) {i : Nat}
    (hi : i < (tokenize source file).length) (previous : Token) :
    let c := Cursor.facing (some source.toList) i previous ((tokenize source file).drop i)
    let expression := (Parse.nested n).expression
    match (c.untilStop stops).find? Token.isFault with
    | some t => ∃ f, t.content = .fault f ∧
        (Parse.message expression stops).run c = .error ⟨.lexical f, t.span⟩ ∧ (Cause.lexical f).code = "E001"
    | none => ∃ e c', (Parse.message expression stops).run c = .ok (e, c') ∧ stops c'.here = true ∧
        (∃ passed, c.tokens = passed ++ c'.tokens) ∧
        (Parse.FallsBack expression stops c → c.tokens = c.untilStop stops ++ c'.tokens ∧
          ∃ last, (c.untilStop stops).getLast? = some last ∧
          ∀ (r : Run) (d : Desk) (scope : ScopeId) (stack : List Frame),
            (∀ name ∈ e.names, r.scopes.lookup? scope name = none) →
            r.evaluate d scope stack e = .value r d (.str (String.ofList
              (Text.between source.toList c.here.span.start.offset last.span.stop.offset))) stack) := by
  intro c expression
  have htiles : Token.TilesFrom source.toList 0 0 (tokenize source file) :=
    Token.scanAll_tilesFrom file [] 0 source.toList
  obtain ⟨hsource, hbehind⟩ : c.source = some source.toList ∧ c.tokens = (tokenize source file).drop i := by
    unfold c
    rw [List.drop_eq_getElem_cons hi]
    exact ⟨rfl, rfl⟩
  clear_value c
  have hsplit : tokenize source file = (tokenize source file).take i ++ c.tokens := by
    rw [hbehind, List.take_append_drop]
  have hc : c.Ends := htiles.cursor_ends hsplit
  have hexpression : Parse.Phrasal expression := (Parse.phrasal_nested n).expression
  cases hfind : (c.untilStop stops).find? Token.isFault with
  | some t =>
    obtain ⟨f, hf, hrun⟩ := Parse.run_message_refused hstops hc hexpression hfind
    exact ⟨f, hf, hrun, rfl⟩
  | none =>
    by_cases hraw : Parse.FallsBack expression stops c
    · have hle : ∀ t ∈ c.untilStop stops, c.here.span.start.offset ≤ t.span.stop.offset := fun t ht =>
        htiles.start_le_stop hsplit (Parse.isFinish_of_going hstops hraw.1) ((List.takeWhile_sublist _).mem ht)
          (Parse.isFinish_of_going hstops (Cursor.going_of_mem_untilStop ht))
      obtain ⟨span, last, c', hrun, hlast, htokens, hstop⟩ :=
        Parse.gives_message_raw hstops hc hsource hfind hraw hle
      refine ⟨_, c', hrun, hstop, ⟨_, htokens⟩, fun _ => ⟨htokens, last, hlast, ?_⟩⟩
      intro r d scope stack hnames
      exact Run.evaluate_rawMessage d stack span _ hnames
    · obtain ⟨e, c', hrun, hstop, hpassed⟩ := Parse.gives_message_parsed hexpression hc hraw
      exact ⟨e, c', hrun, hstop, hpassed, fun hfalls => absurd hfalls hraw⟩

def Cursor.greeting : Cursor :=
  facing (some "print Hi $user.name!".toList) 1 ⟨.keyword .print, "print", default⟩
    ((tokenize "print Hi $user.name!").drop 1)

theorem greeting_fallsBack : Parse.FallsBack (Parse.nested 5).expression endsStatement .greeting := by
  have hends : ((Parse.nested 5).expression.run .greeting).toOption.all (fun found => !found.2.here.endsStatement) =
      true := by decide +kernel
  refine ⟨by decide +kernel, fun e c' hrun => ?_⟩
  rw [hrun] at hends
  simpa [Except.toOption] using hends

theorem message_faithful_greeting : ∃ e c',
    (Parse.message (Parse.nested 5).expression endsStatement).run .greeting = .ok (e, c') ∧
    c'.here.endsStatement = true ∧ ∀ (r : Run) (d : Desk) (scope : ScopeId) (stack : List Frame),
      (∀ name ∈ e.names, r.scopes.lookup? scope name = none) →
      r.evaluate d scope stack e = .value r d (.str "Hi $user.name!") stack := by
  have hfaithful := message_faithful "print Hi $user.name!" none 5 (fun _ h => h) (i := 1) (by decide +kernel)
    ⟨.keyword .print, "print", default⟩
  change match (Cursor.greeting.untilStop endsStatement).find? isFault with | some _ => _ | none => _ at hfaithful
  have hsound : (Cursor.greeting.untilStop endsStatement).find? isFault = none := by
    rw [← Option.isNone_iff_eq_none]
    decide +kernel
  have htext : (Cursor.greeting.untilStop endsStatement).getLast?.map (fun last => String.ofList (Text.between
      "print Hi $user.name!".toList Cursor.greeting.here.span.start.offset last.span.stop.offset)) =
      some "Hi $user.name!" := by decide +kernel
  rw [hsound] at hfaithful
  obtain ⟨e, c', hrun, hstop, -, hraw⟩ := hfaithful
  obtain ⟨-, last, hlast, hvalue⟩ := hraw greeting_fallsBack
  change (Cursor.greeting.untilStop endsStatement).getLast? = some last at hlast
  rw [hlast, Option.map_some, Option.some_inj] at htext
  rw [← htext]
  exact ⟨e, c', hrun, hstop, hvalue⟩

end DeskScript
