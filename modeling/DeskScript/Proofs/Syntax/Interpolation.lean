import DeskScript.Proofs.Syntax.RoundTrip
import DeskScript.Proofs.Text.Runs
import DeskScript.Proofs.Token.Decoding
import DeskScript.Proofs.Token.Parting
import DeskScript.Proofs.Token.Pieces

set_option autoImplicit false

/-!
# References in quoted and in raw text

A name in double quotes may begin with a letter of any script, and one in raw text only with an ASCII letter or `_`. Both
find the same references in a text if all names and keys that are found in the quoted one begin as raw text wants it, and
otherwise not. Main statement: `parseExpression_quoted_iff`.
-/

namespace DeskScript

open DeskScript.Text Token

def Segment.words : Segment → List String
  | .text _ => []
  | .reference name keys => name :: keys

def Expr.words : Expr → List String
  | .template _ segments => segments.flatMap Segment.words
  | _ => []

def Expr.ofPieces (span : Span) (pieces : List Piece) (cs : List Char) : Expr :=
  if pieces.any (· matches .reference _) then .template span (pieces.map Parse.pieceSegment)
  else .literal span (.text (String.ofList cs))

theorem rawMessage_eq (span : Span) (cs : List Char) :
    Parse.rawMessage span cs = .ofPieces span (piecesOf Parse.isRawStart [] [] cs) cs := by
  rw [Parse.rawMessage, rawPieces_eq]
  rfl

namespace Parse

variable {isStart : Char → Bool}

theorem words_pieceSegment {p : Piece} {d : DottedName} (hp : p = .reference d.text) :
    (pieceSegment p).words = d.names.map Name.text := by
  rw [hp, pieceSegment, pathSegment_dotted]
  rfl

theorem beginsWith_name (isStart : Char → Bool) (n : Name) : beginsWith isStart n.text.toList = isStart n.first := by
  rw [Name.text, String.toList_ofList]
  rfl

/-- All words of a template begin as the references of its pieces do. -/
theorem words_ofPieces {pieces : List Piece} (h : ∀ p ∈ pieces, p.Dotted isStart) (span : Span) (cs : List Char) :
    ∀ word ∈ (Expr.ofPieces span pieces cs).words, beginsWith isStart word.toList = true := by
  intro word hword
  unfold Expr.ofPieces at hword
  split at hword
  · obtain ⟨segment, hsegment, hword⟩ := List.mem_flatMap.1 hword
    obtain ⟨p, hp, rfl⟩ := List.mem_map.1 hsegment
    match p with
    | .text s => simp [pieceSegment, Segment.words] at hword
    | .reference path =>
      obtain ⟨d, rfl, hnames⟩ := h _ hp path rfl
      rw [words_pieceSegment rfl] at hword
      obtain ⟨n, hn, rfl⟩ := List.mem_map.1 hword
      rw [beginsWith_name]
      exact hnames n hn
  · simp [Expr.words] at hword

theorem mem_words_ofPieces {pieces : List Piece} {d : DottedName} (h : .reference d.text ∈ pieces) (span : Span)
    (cs : List Char) {n : Name} (hn : n ∈ d.names) : n.text ∈ (Expr.ofPieces span pieces cs).words := by
  have hany : pieces.any (· matches .reference _) = true := List.any_eq_true.2 ⟨_, h, rfl⟩
  rw [Expr.ofPieces, if_pos hany]
  refine List.mem_flatMap.2 ⟨_, List.mem_map_of_mem h, ?_⟩
  rw [words_pieceSegment rfl]
  exact List.mem_map_of_mem hn

theorem ofPieces_plain {pieces : List Piece} (h : ∀ p ∈ pieces, p.Dotted isStart) (span : Span) (cs : List Char)
    (hwords : (Expr.ofPieces span pieces cs).words = []) :
    Expr.ofPieces span pieces cs = .literal span (.text (String.ofList cs)) := by
  unfold Expr.ofPieces
  refine if_neg fun hany => ?_
  obtain ⟨p, hp, hreference⟩ := List.any_eq_true.1 hany
  match p with
  | .text s => simp at hreference
  | .reference path =>
    obtain ⟨d, rfl, -⟩ := h _ hp path rfl
    have hmem := mem_words_ofPieces hp span cs (n := d.first) List.mem_cons_self
    simp [hwords] at hmem

end Parse

namespace Token

theorem stopsName_quote {cs : List Char} (h : stopsName isNameStart cs = true) :
    stopsName isNameStart (cs ++ ['"']) = true := by
  have hquote : isNameChar '"' = false ∧ isNameStart '"' = false := by decide
  match cs with
  | [] => simp [stopsName, hquote]
  | [c] =>
    have hc : isNameChar c = false := by
      rw [stopsName, Bool.not_eq_true', Bool.or_eq_false_iff] at h
      exact h.1
    simp [stopsName, hc, beginsWith, hquote]
  | c :: d :: cs => exact h

theorem beginsWith_quote (cs : List Char) : beginsWith isNameStart (cs ++ ['"']) = beginsWith isNameStart cs := by
  cases cs with
  | nil =>
    show isNameStart '"' = false
    decide
  | cons c cs => rfl

/-- A text without quotes, backslashes and line ends is read between double quotes as it stands. -/
theorem scanQuoted_clean (pieces : List Piece) (hpieces : pieces = [] ∨ ∃ path, .reference path ∈ pieces)
    (chars taken : List Char) {cs : List Char} (hcs : ∀ c ∈ cs, c ≠ '"' ∧ c ≠ '\\' ∧ c ≠ '\n') :
    (scanQuoted '"' pieces chars taken (cs ++ ['"'])).content =
        Wording.content (piecesOf isNameStart pieces chars cs) ∧
      (scanQuoted '"' pieces chars taken (cs ++ ['"'])).rest = [] := by
  fun_induction piecesOf isNameStart pieces chars cs generalizing taken with
  | case1 pieces chars =>
    rw [List.nil_append, scanQuoted_close]
    exact ⟨textContent_eq hpieces chars, rfl⟩
  | case2 pieces chars c rest hc name ih =>
    obtain ⟨rfl, hbegins⟩ : c = '$' ∧ beginsWith isNameStart rest = true := by simpa using hc
    have hsplit : rest = name.1 ++ name.2 := (dottedSpan_split isNameStart rest).symm
    have hread : dottedSpan isNameStart (rest ++ ['"']) = (name.1, name.2 ++ ['"']) := by
      rw [hsplit, List.append_assoc]
      exact dottedSpan_again isNameChar_of_isNameStart rest _ (stopsName_quote (dottedSpan_stops isNameStart rest))
    rw [List.cons_append, scanQuoted_reference pieces chars taken ((beginsWith_quote rest).trans hbegins) hread]
    refine ih (.inr ⟨_, List.mem_cons_self⟩) _ fun c hc => hcs c (List.mem_cons_of_mem _ ?_)
    rw [hsplit]
    exact List.mem_append_right _ hc
  | case3 pieces chars c rest hc ih =>
    obtain ⟨⟨hq, hb, hn⟩, hrest⟩ := List.forall_mem_cons.1 hcs
    rw [List.cons_append, scanQuoted_other pieces chars taken _ hq hn hb (by simpa [beginsWith_quote] using hc)]
    exact ih hpieces _ hrest

theorem content_plain {cs : List Char} (h : ∀ path, .reference path ∉ piecesOf isNameStart [] [] cs) :
    Wording.content (piecesOf isNameStart [] [] cs) = .text (String.ofList cs) := by
  rw [piecesOf_plain h, ← textContent_eq (.inl rfl), textContent, List.append_nil, List.reverse_reverse]
  rfl

end Token

namespace Parse

theorem gives_chain_alone {ω : Type} {level : Nat} {operand : Parse Expr} {operator? : Token → Option ω}
    {build : Span → ω → Expr → Expr → Expr} (table : Level level operator? build) {c c' : Cursor} {e : Expr}
    (h : Gives operand c e c') (hstop : c'.here.content.Closes level) : Gives (chain operand operator? build) c e c' :=
  gives_bind (gives_here c) (gives_bind h (gives_bind (gives_rounds c') (chainFrom_stop table hstop)))

/-- A primary expression that nothing follows is an expression. -/
theorem gives_nested_alone {n : Nat} {c c' : Cursor} {e : Expr} (h : Gives (primary (nested n)) c e c')
    (hunary : unaryOperator? c.here = none) (hstop : c'.here.content = .finish) :
    Gives (nested (n + 1)).expression c e c' := by
  have hclosed (level : Nat) : c'.here.content.Closes level := hstop ▸ .finish
  have haccessed : Gives (accessed (nested n)) c e c' :=
    gives_bind (gives_here c) (gives_bind h (gives_bind (gives_rounds c') (accessorsFrom_stop e _ (hclosed 6))))
  have hlevel : Gives (unaryLevel (nested n)) c e c' := by
    refine gives_bind (gives_here c) ?_
    rw [hunary]
    exact haccessed
  have hproduct := gives_chain_alone product_table hlevel (hclosed 4)
  have hsum := gives_chain_alone sum_table hproduct (hclosed 3)
  have hcomparison := gives_chain_alone comparison_table hsum (hclosed 2)
  have hand := gives_chain_alone (logic_table .and) hcomparison (hclosed _)
  exact gives_chain_alone (logic_table .or) hand (hclosed _)

theorem gives_primary_quoted (nested : Nested) (c : Cursor) {cs : List Char}
    (hcontent : c.here.content = Wording.content (piecesOf isNameStart [] [] cs)) :
    Gives (primary nested) c (.ofPieces c.here.span (piecesOf isNameStart [] [] cs) cs) c.next ∧
      unaryOperator? c.here = none ∧ c.here.isFinish = false := by
  by_cases hany : (piecesOf isNameStart [] [] cs).any (· matches .reference _) = true
  · obtain ⟨p, hp, hreference⟩ := List.any_eq_true.1 hany
    obtain ⟨path, rfl⟩ : ∃ path, p = .reference path := by
      cases p with
      | text s => simp at hreference
      | reference path => exact ⟨path, rfl⟩
    rw [Wording.content_of_reference hp] at hcontent
    refine ⟨?_, by simp [unaryOperator?, hcontent], by simp [Token.isFinish, hcontent]⟩
    rw [Expr.ofPieces, if_pos hany]
    refine gives_bind (gives_here c) (gives_bind (gives_get c) ?_)
    simp only [hcontent]
    exact gives_bind (gives_advance c) (gives_pure _ _)
  · have hplain : ∀ path, .reference path ∉ piecesOf isNameStart [] [] cs := by
      intro path hpath
      exact hany (List.any_eq_true.2 ⟨_, hpath, rfl⟩)
    rw [content_plain hplain] at hcontent
    refine ⟨?_, by simp [unaryOperator?, hcontent], by simp [Token.isFinish, hcontent]⟩
    rw [Expr.ofPieces, if_neg hany]
    refine gives_bind (gives_here c) (gives_bind (gives_get c) ?_)
    simp only [hcontent]
    exact gives_constant _ c

/-- A token that was read from a quoted text, with nothing behind it, is an expression. -/
theorem parseExpression_alone {t last : Token} {cs : List Char}
    (ht : t.content = Wording.content (piecesOf isNameStart [] [] cs)) (hlast : last.content = .finish)
    (source : Option String) :
    parseExpression [t, last] source = .ok (.ofPieces t.span (piecesOf isNameStart [] [] cs) cs, 1) := by
  obtain ⟨hprimary, hunary, hfinish⟩ :=
    gives_primary_quoted (nested 2) (Cursor.ofTokens source [t, last]) ht
  have hnext : (Cursor.ofTokens source [t, last]).next = ⟨source.map String.toList, 1, t, last, []⟩ := by
    have ht : t.isFinish = false := hfinish
    simp [Cursor.next, Cursor.ofTokens, ht]
  have hexpression := gives_nested_alone hprimary hunary (by rw [hnext]; exact hlast)
  have hlength : [t, last].length + 1 = 2 + 1 := rfl
  unfold parseExpression
  rw [hlength, hexpression, hnext]
  rfl

end Parse

/-- A text in double quotes is one token, and an expression with the pieces of the text. -/
theorem parseExpression_quoted (cs : List Char) (hcs : ∀ c ∈ cs, c ≠ '"' ∧ c ≠ '\\' ∧ c ≠ '\n')
    (file source : Option String) : ∃ t last, tokenize (String.ofList ('"' :: cs ++ ['"'])) file = [t, last] ∧
      last.isFinish = true ∧
      parseExpression [t, last] source = .ok (.ofPieces t.span (piecesOf isNameStart [] [] cs) cs, 1) := by
  obtain ⟨hcontent, hrest⟩ := scanQuoted_clean [] (.inl rfl) [] ['"'] hcs
  have hscan : scan '"' (cs ++ ['"']) = scanQuoted '"' [] [] ['"'] (cs ++ ['"']) := by simp [scan]
  obtain ⟨span, stop, htokens⟩ := tokenize_single file '"' (cs ++ ['"']) (by decide) (by rw [hscan, hrest])
  rw [hscan] at htokens
  exact ⟨_, _, htokens, rfl, Parse.parseExpression_alone hcontent rfl source⟩

/-- A text in double quotes is read as in a raw message exactly if all names and keys that it refers to begin with an ASCII
letter or `_`. -/
theorem parseExpression_quoted_iff (cs : List Char) (hcs : ∀ c ∈ cs, c ≠ '"' ∧ c ≠ '\\' ∧ c ≠ '\n')
    (file source : Option String) : ∃ t last e, tokenize (String.ofList ('"' :: cs ++ ['"'])) file = [t, last] ∧
      last.isFinish = true ∧ parseExpression [t, last] source = .ok (e, 1) ∧
      (e.words = [] → e = .literal t.span (.text (String.ofList cs))) ∧
      (e = Parse.rawMessage t.span cs ↔ ∀ word ∈ e.words, beginsWith Parse.isRawStart word.toList = true) := by
  obtain ⟨t, last, htokens, hlast, he⟩ := parseExpression_quoted cs hcs file source
  have hquoted := piecesOf_dotted (fun _ h => h) [] (by simp) [] cs
  have hraw := piecesOf_dotted Parse.isNameStart_of_isRawStart [] (by simp) [] cs
  refine ⟨t, last, _, htokens, hlast, he, Parse.ofPieces_plain hquoted t.span cs, ?_, fun hwords => ?_⟩
  · intro hsame
    rw [hsame, rawMessage_eq]
    exact Parse.words_ofPieces hraw t.span cs
  · rw [rawMessage_eq, piecesOf_eq (fun _ h => h) Parse.isNameStart_of_isRawStart]
    rintro p hp d rfl n hn
    rw [← Parse.beginsWith_name Parse.isRawStart]
    exact hwords _ (Parse.mem_words_ofPieces hp t.span cs hn)

theorem parseExpression_quoted_iff_greeting : ∃ t last e, tokenize "\"Hi $user.name!\"" = [t, last] ∧
    last.isFinish = true ∧ parseExpression [t, last] none = .ok (e, 1) ∧
    (e.words = [] → e = .literal t.span (.text "Hi $user.name!")) ∧
    (e = Parse.rawMessage t.span "Hi $user.name!".toList ↔
      ∀ word ∈ e.words, beginsWith Parse.isRawStart word.toList = true) :=
  parseExpression_quoted_iff "Hi $user.name!".toList (by simp) none none

/-- A name that begins with an accented letter is a reference in double quotes, and plain text in a raw message. -/
theorem accented_name_is_plain_in_raw : ∃ t last, tokenize "\"$é\"" = [t, last] ∧ last.isFinish = true ∧
    parseExpression [t, last] none = .ok (.template t.span [.reference "é" []], 1) ∧
    Parse.rawMessage t.span "$é".toList = .literal t.span (.text "$é") := by
  obtain ⟨t, last, htokens, hlast, he⟩ := parseExpression_quoted ['$', 'é'] (by simp) none none
  have hquoted : piecesOf isNameStart [] [] ['$', 'é'] = [.reference "é"] := by
    have hname : isNameChar 'é' = true := isNameChar_of_isNameStart _ isNameStart_accented
    have hbegins : beginsWith isNameStart ['é'] = true := by rw [beginsWith, isNameStart_accented]
    have hread : dottedSpan isNameStart ['é'] = (['é'], []) := by rw [dottedSpan_cons (.inl hname), dottedSpan]
    simp [piecesOf, hbegins, hread, flushText]
  have hraw : piecesOf Parse.isRawStart [] [] ['$', 'é'] = [.text "$é"] := by
    have hascii : Parse.isRawStart 'é' = false := by decide
    simp [piecesOf, beginsWith, hascii, flushText]
  have hplain : Parse.rawMessage t.span ['$', 'é'] = .literal t.span (.text "$é") := by
    rw [rawMessage_eq, hraw]
    rfl
  rw [hquoted] at he
  exact ⟨t, last, htokens, hlast, he, hplain⟩

end DeskScript
