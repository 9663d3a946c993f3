import DeskScript.Proofs.Syntax.Phrase
import DeskScript.Proofs.Token.Scan

set_option autoImplicit false

/-!
# Reading marks back

The text of a list of marks has the marks as its tokens, if no mark runs into the text behind it. The marks of a phrase
have that property. Main statement: `Phrase.tokenize_print`.
-/

namespace DeskScript

open DeskScript.Text
open DeskScript.Token (Ends isGapChar isSymbolChar ends_cons)

namespace Mark

structure Reads (m : Mark) (rest : List Char) : Prop where
  found : ∃ c cs, m.chars = c :: cs ∧ isGapChar c = false ∧ Token.scan c (cs ++ rest) = ⟨m.content, m.chars, rest⟩
  inline : m.content ≠ .newline

def ReadsAll : List Mark → List Char → Prop
  | [], _ => True
  | m :: ms, rest => m.Reads (text ms ++ rest) ∧ ReadsAll ms rest

theorem readsAll_append (ms ns : List Mark) (rest : List Char) :
    ReadsAll (ms ++ ns) rest ↔ ReadsAll ms (text ns ++ rest) ∧ ReadsAll ns rest := by
  induction ms with
  | nil => simp [ReadsAll]
  | cons m ms ih => rw [List.cons_append, ReadsAll, ReadsAll, ih, text_append, List.append_assoc, and_assoc]

def Spelled : Token → List Mark → List Token → Prop
  | _, [], [] => True
  | previous, m :: ms, t :: ts =>
    t.content = m.content ∧ t.lexeme = String.ofList m.chars ∧ (m.glued = true → previous.adjacent t = true) ∧
      Spelled t ms ts
  | _, _, _ => False

theorem spelled_length {previous : Token} {ms : List Mark} {ts : List Token} (h : Spelled previous ms ts) :
    ts.length = ms.length := by
  induction ms generalizing previous ts with
  | nil =>
    cases ts with
    | nil => rfl
    | cons t ts => exact h.elim
  | cons m ms ih =>
    cases ts with
    | nil => exact h.elim
    | cons t ts => rw [List.length_cons, List.length_cons, ih h.2.2.2]

theorem spelled_cons {previous : Token} {m : Mark} {ms : List Mark} {ts : List Token}
    (h : Spelled previous (m :: ms) ts) :
    ∃ t us, ts = t :: us ∧ t.content = m.content ∧ t.lexeme = String.ofList m.chars ∧
      (m.glued = true → previous.adjacent t = true) ∧ Spelled t ms us := by
  cases ts with
  | nil => exact h.elim
  | cons t ts => exact ⟨t, ts, rfl, h⟩

theorem spelled_append {previous : Token} {ms ns : List Mark} {ts : List Token} (h : Spelled previous (ms ++ ns) ts) :
    ∃ us vs, ts = us ++ vs ∧ Spelled previous ms us ∧ Spelled (us.getLastD previous) ns vs := by
  induction ms generalizing previous ts with
  | nil => exact ⟨[], ts, rfl, trivial, h⟩
  | cons m ms ih =>
    obtain ⟨t, us, rfl, hcontent, hlexeme, hglued, htail⟩ := spelled_cons h
    obtain ⟨vs, ws, rfl, hms, hns⟩ := ih htail
    refine ⟨t :: vs, ws, rfl, ⟨hcontent, hlexeme, hglued, hms⟩, ?_⟩
    rw [List.getLastD_cons]
    exact hns

/-- What stands before the first mark matters only if the mark is glued to it. -/
theorem spelled_loose {previous other : Token} {g : Bool} {m : Mark} {ms : List Mark} {ts : List Token}
    (h : Spelled previous ({ m with glued := g } :: ms) ts) : Spelled other ({ m with glued := false } :: ms) ts := by
  obtain ⟨t, us, rfl, hcontent, hlexeme, -, htail⟩ := spelled_cons h
  exact ⟨hcontent, hlexeme, by simp, htail⟩

theorem adjacent_of_offset {s t : Token} (h : s.span.stop.offset = t.span.start.offset) : s.adjacent t = true := by
  simp [Token.adjacent, h]

theorem scanAll_text (file : Option String) (depth : Nat) (here : Location) (previous : Token) (ms : List Mark)
    (h : ReadsAll ms []) (hp : previous.span.stop.offset = here.offset) :
    ∃ ts last, Token.scanAll file depth here (text ms) = ts ++ [last] ∧ last.isFinish = true ∧ Spelled previous ms ts := by
  induction ms generalizing depth here previous with
  | nil =>
    rw [text_nil, Token.scanAll_of_gap file here (show Token.gapSpan depth false [] = ([], []) from rfl)]
    exact ⟨[], _, rfl, rfl, trivial⟩
  | cons m ms ih =>
    obtain ⟨⟨⟨c, cs, hchars, hgap, hscan⟩, hinline⟩, hms⟩ := h
    rw [List.append_nil] at hscan
    obtain ⟨gap, hspan, hglue⟩ : ∃ gap, Token.gapSpan depth false (text (m :: ms)) = (gap, c :: (cs ++ text ms)) ∧
        (m.glued = true → gap = []) := by
      cases hg : m.glued with
      | true =>
        refine ⟨[], ?_, fun _ => rfl⟩
        simp only [text, hg, if_true, hchars, List.cons_append]
        exact Token.gapSpan_of_not_gapChar depth _ hgap
      | false =>
        refine ⟨[' '], ?_, by simp⟩
        simp only [text, hg, hchars]
        exact Token.gapSpan_blank depth _ hgap
    rw [Token.scanAll_of_token file here hspan, hscan]
    simp only [Token.lexemeOf_eq _ hinline]
    obtain ⟨ts, last, hts, hlast, hspelled⟩ := ih (Token.depthAfter depth m.content)
      ((here.after gap).after m.chars)
      ⟨m.content, String.ofList m.chars, ⟨here.after gap, (here.after gap).after m.chars, file⟩⟩ hms rfl
    refine ⟨_ :: ts, last, by rw [hts]; rfl, hlast, rfl, rfl, ?_, hspelled⟩
    intro hg
    apply adjacent_of_offset
    rw [hp, hglue hg]
    rfl

theorem pairContent?_eq_none {c : Char} (h : c ∉ ['=', '!', '<', '>', '&', '|']) (d : Char) :
    Token.pairContent? c d = none := by
  simp only [List.mem_cons, List.not_mem_nil, or_false, not_or] at h
  simp [Token.pairContent?, h]

theorem sign_reads (g : Bool) {s : Symbol} {c : Char} (rest : List Char) (hgap : isGapChar c = false)
    (hsymbol : isSymbolChar c = true) (hcontent : Token.singleContent c = .symbol s)
    (hpair : c ∉ ['=', '!', '<', '>', '&', '|']) : (sign g s c).Reads rest := by
  refine ⟨⟨c, [], rfl, hgap, ?_⟩, by simp [sign]⟩
  rw [List.nil_append, Token.scan_single hsymbol fun d _ => pairContent?_eq_none hpair d, hcontent]
  rfl

theorem leftParen_reads (g : Bool) (rest : List Char) : (sign g .leftParen '(').Reads rest :=
  sign_reads g rest (by decide) (by decide) rfl (by decide)

theorem rightParen_reads (g : Bool) (rest : List Char) : (sign g .rightParen ')').Reads rest :=
  sign_reads g rest (by decide) (by decide) rfl (by decide)

theorem leftBracket_reads (g : Bool) (rest : List Char) : (sign g .leftBracket '[').Reads rest :=
  sign_reads g rest (by decide) (by decide) rfl (by decide)

theorem rightBracket_reads (g : Bool) (rest : List Char) : (sign g .rightBracket ']').Reads rest :=
  sign_reads g rest (by decide) (by decide) rfl (by decide)

theorem leftBrace_reads (g : Bool) (rest : List Char) : (sign g .leftBrace '{').Reads rest :=
  sign_reads g rest (by decide) (by decide) rfl (by decide)

theorem rightBrace_reads (g : Bool) (rest : List Char) : (sign g .rightBrace '}').Reads rest :=
  sign_reads g rest (by decide) (by decide) rfl (by decide)

theorem comma_reads (g : Bool) (rest : List Char) : (sign g .comma ',').Reads rest :=
  sign_reads g rest (by decide) (by decide) rfl (by decide)

theorem colon_reads (g : Bool) (rest : List Char) : (sign g .colon ':').Reads rest :=
  sign_reads g rest (by decide) (by decide) rfl (by decide)

theorem dot_reads (g : Bool) (rest : List Char) : (sign g .dot '.').Reads rest :=
  sign_reads g rest (by decide) (by decide) rfl (by decide)

end Mark

/-- A blank keeps an operator apart from what follows it. -/
theorem Joiner.mark_reads (op : Joiner) (rest : List Char) : op.mark.Reads (' ' :: rest) := by
  have single (c : Char) (hgap : isGapChar c = false) (hsymbol : isSymbolChar c = true) (hc : Token.singleContent c ≠ .newline) :
      Mark.Reads ⟨false, Token.singleContent c, [c]⟩ (' ' :: rest) := by
    refine ⟨⟨c, [], rfl, hgap, Token.scan_single hsymbol ?_⟩, hc⟩
    intro d hd
    obtain rfl : ' ' = d := by simpa using hd
    simp [Token.pairContent?]
  have pair (c d : Char) (content : Content) (hgap : isGapChar c = false) (hsymbol : isSymbolChar c = true)
      (hpair : Token.pairContent? c d = some content) (hc : content ≠ .newline) :
      Mark.Reads ⟨false, content, [c, d]⟩ (' ' :: rest) :=
    ⟨⟨c, [d], rfl, hgap, Token.scan_pair (' ' :: rest) hsymbol hpair⟩, hc⟩
  match op with
  | .logic .or => exact pair '|' '|' _ (by decide) (by decide) rfl (by simp [content])
  | .logic .and => exact pair '&' '&' _ (by decide) (by decide) rfl (by simp [content])
  | .binary .eq => exact pair '=' '=' _ (by decide) (by decide) rfl (by simp [content])
  | .binary .ne => exact pair '!' '=' _ (by decide) (by decide) rfl (by simp [content])
  | .binary .le => exact pair '<' '=' _ (by decide) (by decide) rfl (by simp [content])
  | .binary .ge => exact pair '>' '=' _ (by decide) (by decide) rfl (by simp [content])
  | .binary .lt => exact single '<' (by decide) (by decide) (by simp [Token.singleContent])
  | .binary .gt => exact single '>' (by decide) (by decide) (by simp [Token.singleContent])
  | .binary .plus => exact single '+' (by decide) (by decide) (by simp [Token.singleContent])
  | .binary .minus => exact single '-' (by decide) (by decide) (by simp [Token.singleContent])
  | .binary .times => exact single '*' (by decide) (by decide) (by simp [Token.singleContent])
  | .binary .divide => exact single '/' (by decide) (by decide) (by simp [Token.singleContent])
  | .binary .remainder => exact single '%' (by decide) (by decide) (by simp [Token.singleContent])

theorem unaryMark_reads (g : Bool) (op : UnaryOp) {rest : List Char} (h : rest.head? ≠ some '=') :
    (unaryMark g op).Reads rest := by
  cases op with
  | negate =>
    refine ⟨⟨'-', [], rfl, by decide, Token.scan_single (by decide) ?_⟩, by simp [unaryMark]⟩
    exact fun d _ => Mark.pairContent?_eq_none (by decide) d
  | not =>
    refine ⟨⟨'!', [], rfl, by decide, Token.scan_single (by decide) ?_⟩, by simp [unaryMark]⟩
    intro d hd
    have hne : d ≠ '=' := by
      rintro rfl
      exact h hd
    simp [Token.pairContent?, hne]

theorem encodes_escapedChar (c : Char) : Token.Encodes '\'' c (escapedChar c) := by
  by_cases hq : c = '\''
  · subst hq
    exact .escape rfl
  by_cases hb : c = '\\'
  · subst hb
    exact .escape rfl
  by_cases hn : c = '\n'
  · subst hn
    exact .escape (e := 'n') rfl
  by_cases ht : c = '\t'
  · subst ht
    exact .escape (e := 't') rfl
  by_cases hr : c = '\r'
  · subst hr
    exact .escape (e := 'r') rfl
  by_cases hz : c = Char.ofNat 0
  · subst hz
    exact .escape (e := '0') rfl
  have hplain : escapedChar c = [c] := by simp only [escapedChar, hq, hb, hn, ht, hr, hz, if_false]
  rw [hplain]
  exact .plain hq hn hb (.inl (by decide))

theorem scanQuoted_escaped (cs chars taken rest : List Char) :
    Token.scanQuoted '\'' [] chars taken (cs.flatMap escapedChar ++ '\'' :: rest) =
      ⟨.text (String.ofList (chars.reverse ++ cs)), taken.reverse ++ (cs.flatMap escapedChar ++ ['\'']), rest⟩ := by
  rw [Token.scanQuoted_encoded (by decide) encodes_escapedChar, Token.scanQuoted_close]
  simp [Token.textContent]

theorem quotedMark_reads (g : Bool) (s : String) (rest : List Char) : (quotedMark g s).Reads rest := by
  refine ⟨⟨'\'', s.toList.flatMap escapedChar ++ ['\''], rfl, by decide, ?_⟩, by simp [quotedMark]⟩
  have h := scanQuoted_escaped s.toList [] ['\''] rest
  simp only [List.reverse_nil, List.nil_append, String.ofList_toList] at h
  rw [List.append_assoc, List.singleton_append]
  simp only [Token.scan]
  simpa [quotedMark, singleQuoted] using h

theorem wordContent_ne_newline (cs : List Char) : Token.wordContent cs ≠ .newline := by
  unfold Token.wordContent
  split <;> simp

theorem Numeral.pointed_fraction {ds rest : List Char} (hds : ∀ d ∈ ds, isAsciiDigit d = true) (h : Ends rest) :
    Token.beginsWith isAsciiDigit (pointed ds ++ rest) = false ∧
      Token.fractionSpan (pointed ds ++ rest) = (pointed ds, rest) := by
  cases ds with
  | nil => exact ⟨Token.beginsWith_digit_of_ends h, h.fraction⟩
  | cons d ds =>
    refine ⟨show isAsciiDigit '.' = false by decide, ?_⟩
    exact Token.fractionSpan_point (hds d (by simp)) (fun e he => hds e (by simp [he])) h

theorem Numeral.reads (n : Numeral) (g : Bool) {rest : List Char} (h : Ends rest) :
    Mark.Reads ⟨g, .number (Token.numberValue n.chars), n.chars⟩ rest := by
  obtain ⟨hstop, hfraction⟩ := Numeral.pointed_fraction n.fraction_digit h
  have hscan := Token.scan_number n.first_digit n.rest_digit hstop hfraction h
  exact ⟨⟨n.first, n.rest ++ pointed n.fraction, rfl, Token.isGapChar_of_digit n.first_digit, hscan⟩, by simp⟩

theorem Name.reads (n : Name) (g : Bool) {rest : List Char} (h : Ends rest) :
    Mark.Reads ⟨g, Token.wordContent n.chars, n.chars⟩ rest := by
  refine ⟨⟨n.first, n.rest, rfl, ?_, Token.scan_name n.first_start n.rest_char h⟩, wordContent_ne_newline _⟩
  exact Token.isGapChar_of_nameStart n.first_start

theorem Name.var_reads (n : Name) (g : Bool) {rest : List Char} (h : Ends rest) :
    Mark.Reads ⟨g, .var n.text, '$' :: n.chars⟩ rest :=
  ⟨⟨'$', n.chars, rfl, by decide, Token.scan_variable n.first_start n.rest_char h⟩, by simp⟩

theorem Keyword.reads (g : Bool) {k : Keyword} {c : Char} {cs rest : List Char} (hc : isNameStart c = true)
    (hcs : cs.all isNameChar = true) (hk : ofText? (String.ofList (c :: cs)) = some k) (h : Ends rest) :
    Mark.Reads ⟨g, .keyword k, c :: cs⟩ rest := by
  have hword : Token.wordContent (c :: cs) = .keyword k := by
    unfold Token.wordContent
    rw [hk]
  have hreads := Name.reads ⟨c, cs, hc, List.all_eq_true.1 hcs⟩ g h
  rwa [Name.chars, hword] at hreads

theorem FunctionName.reads (n : FunctionName) (g : Bool) {rest : List Char} (h : Ends rest) :
    Mark.Reads ⟨g, .word, n.chars⟩ rest := by
  have hword : Token.wordContent n.chars = .word := by
    unfold Token.wordContent
    rw [show Keyword.ofText? (String.ofList n.chars) = none from n.free]
  have hreads := n.toName.reads g h
  rwa [hword] at hreads

theorem Mark.readsAll_closed {ms : List Mark} {s : Symbol} {c : Char} {rest : List Char}
    (hms : ∀ rest, Ends rest → ReadsAll ms rest) (hsign : (sign true s c).Reads rest) (hname : isNameChar c = false)
    (hdot : c ≠ '.') : ReadsAll (ms ++ [sign true s c]) rest := by
  rw [readsAll_append]
  exact ⟨hms _ (ends_cons rest hname hdot), hsign, trivial⟩

theorem enclosed_reads {needed g : Bool} {inner : Bool → List Mark} {rest : List Char} (h : Ends rest)
    (hinner : ∀ g rest, Ends rest → Mark.ReadsAll (inner g) rest) : Mark.ReadsAll (enclosed needed g inner) rest := by
  cases needed with
  | false => exact hinner g rest h
  | true =>
    refine ⟨Mark.leftParen_reads g _, ?_⟩
    exact Mark.readsAll_closed (hinner true) (Mark.rightParen_reads true rest) (by decide) (by decide)

def Content.begins (tight : Bool) : Content → Bool
  | .number _ | .text _ | .var _ | .word | .keyword .trueWord | .keyword .falseWord | .keyword .null => true
  | .symbol .leftParen | .symbol .leftBracket | .symbol .leftBrace => true
  | .symbol .minus | .keyword .not => !tight
  | _ => false

structure Mark.Opens (wanted : Nat) (m : Mark) : Prop where
  chars : ∃ c cs, m.chars = c :: cs ∧ c ≠ '='
  content : m.content.begins (5 < wanted) = true

theorem Content.begins_of_tight {content : Content} (tight : Bool) (h : content.begins true = true) :
    content.begins tight = true := by
  unfold begins at *
  split at h <;> simp_all

theorem Mark.Opens.loose {m : Mark} (h : m.Opens 6) (wanted : Nat) : m.Opens wanted :=
  ⟨h.chars, Content.begins_of_tight _ h.content⟩

theorem enclosed_head {needed : Bool} {wanted : Nat} {inner : Bool → List Mark} {m : Mark} {ms : List Mark}
    (h : ∀ g, inner g = ⟨g, m.content, m.chars⟩ :: ms) (hm : needed = false → m.Opens wanted) :
    ∃ (n : Mark) (ns : List Mark), (∀ g, enclosed needed g inner = ⟨g, n.content, n.chars⟩ :: ns) ∧ n.Opens wanted := by
  cases needed with
  | false => exact ⟨m, ms, h, hm rfl⟩
  | true =>
    refine ⟨.sign true .leftParen '(', inner true ++ [.sign true .rightParen ')'], fun _ => rfl, ?_⟩
    exact ⟨⟨'(', [], rfl, by decide⟩, rfl⟩

theorem Joiner.level_lt (op : Joiner) : op.level < 5 := by
  match op with
  | logic .or | logic .and => decide
  | binary .eq | binary .ne | binary .lt | binary .gt | binary .le | binary .ge => decide
  | binary .plus | binary .minus | binary .times | binary .divide | binary .remainder => decide

namespace Phrase

/-- The marks of a phrase are the same but for the first when it is glued to what stands before it. -/
theorem marks_head (p : Phrase) (wanted : Nat) :
    ∃ (m : Mark) (ms : List Mark), (∀ g, p.marks g wanted = ⟨g, m.content, m.chars⟩ :: ms) ∧ m.Opens wanted := by
  match p with
  | number digits =>
    refine ⟨⟨true, _, digits.chars⟩, [], fun _ => rfl, ⟨digits.first, _, rfl, ?_⟩, rfl⟩
    rintro he
    exact absurd (he ▸ digits.first_digit) (by decide)
  | text s => exact ⟨quotedMark true s, [], fun _ => rfl, ⟨'\'', _, rfl, by decide⟩, rfl⟩
  | bool true => exact ⟨⟨true, _, _⟩, [], fun _ => rfl, ⟨'t', _, rfl, by decide⟩, rfl⟩
  | bool false => exact ⟨⟨true, _, _⟩, [], fun _ => rfl, ⟨'f', _, rfl, by decide⟩, rfl⟩
  | null => exact ⟨⟨true, _, _⟩, [], fun _ => rfl, ⟨'n', _, rfl, by decide⟩, rfl⟩
  | var name => exact ⟨⟨true, _, _⟩, [], fun _ => rfl, ⟨'$', _, rfl, by decide⟩, rfl⟩
  | unary .negate operand =>
    refine enclosed_head (m := unaryMark true .negate) (fun _ => rfl) fun hneeded => ⟨⟨'-', [], rfl, by decide⟩, ?_⟩
    rw [hneeded]
    rfl
  | unary .not operand =>
    refine enclosed_head (m := unaryMark true .not) (fun _ => rfl) fun hneeded => ⟨⟨'!', [], rfl, by decide⟩, ?_⟩
    rw [hneeded]
    rfl
  | joined op left right =>
    obtain ⟨m, ms, hm, hchars, hcontent⟩ := marks_head left op.level
    have hlevel := op.level_lt
    refine enclosed_head (fun g => by rw [hm, List.cons_append]) fun hneeded => ⟨hchars, ?_⟩
    have hwanted : ¬ op.level < wanted := by simpa using hneeded
    rwa [show decide (5 < wanted) = decide (5 < op.level) from decide_eq_decide.2 (by omega)]
  | array elements => exact ⟨.sign true .leftBracket '[', _, fun _ => rfl, ⟨'[', [], rfl, by decide⟩, rfl⟩
  | object entries => exact ⟨.sign true .leftBrace '{', _, fun _ => rfl, ⟨'{', [], rfl, by decide⟩, rfl⟩
  | call name arguments =>
    refine ⟨⟨true, .word, name.chars⟩, _, fun _ => rfl, ⟨name.first, _, rfl, ?_⟩, rfl⟩
    rintro he
    exact absurd (he ▸ name.first_start) (by decide)
  | member base name =>
    obtain ⟨m, ms, hm, hopens⟩ := marks_head base 6
    exact ⟨m, _, fun g => by rw [marks, hm, List.cons_append], hopens.loose wanted⟩
  | index base key =>
    obtain ⟨m, ms, hm, hopens⟩ := marks_head base 6
    exact ⟨m, _, fun g => by rw [marks, hm, List.cons_append, List.cons_append], hopens.loose wanted⟩

theorem marks_text_head (p : Phrase) (wanted : Nat) (rest : List Char) :
    (Mark.text (p.marks true wanted) ++ rest).head? ≠ some '=' := by
  obtain ⟨m, ms, hm, ⟨c, cs, hchars, hne⟩, -⟩ := marks_head p wanted
  rw [hm, Mark.text]
  simpa [hchars] using hne

theorem moreMarks_ends (ps : List Phrase) {rest : List Char} (h : Ends rest) : Ends (Mark.text (moreMarks ps) ++ rest) := by
  cases ps with
  | nil => exact h
  | cons p ps => exact ends_cons _ (by decide) (by decide)

theorem moreEntryMarks_ends (es : List (String × Phrase)) {rest : List Char} (h : Ends rest) :
    Ends (Mark.text (moreEntryMarks es) ++ rest) := by
  cases es with
  | nil => exact h
  | cons e es => exact ends_cons _ (by decide) (by decide)

mutual

theorem marks_reads (p : Phrase) (g : Bool) (wanted : Nat) {rest : List Char} (h : Ends rest) :
    Mark.ReadsAll (p.marks g wanted) rest := by
  match p with
  | number digits => exact ⟨digits.reads g h, trivial⟩
  | text s => exact ⟨quotedMark_reads g s _, trivial⟩
  | bool true => exact ⟨Keyword.reads g (by decide) (by decide) (by decide) h, trivial⟩
  | bool false => exact ⟨Keyword.reads g (by decide) (by decide) (by decide) h, trivial⟩
  | null => exact ⟨Keyword.reads g (by decide) (by decide) (by decide) h, trivial⟩
  | var name => exact ⟨name.var_reads g h, trivial⟩
  | unary op operand =>
    apply enclosed_reads h
    intro g rest h
    exact ⟨unaryMark_reads g op (marks_text_head operand 5 rest), marks_reads operand true 5 h⟩
  | joined op left right =>
    apply enclosed_reads h
    intro g rest h
    rw [Mark.readsAll_append]
    refine ⟨marks_reads left g op.level (ends_cons _ (by decide) (by decide)), ?_, marks_reads right false _ h⟩
    obtain ⟨m, ms, hm, -⟩ := marks_head right (op.level + 1)
    rw [hm]
    exact op.mark_reads _
  | array elements =>
    refine ⟨Mark.leftBracket_reads g _, ?_⟩
    exact Mark.readsAll_closed (fun _ => listMarks_reads elements) (Mark.rightBracket_reads true rest) (by decide) (by decide)
  | object entries =>
    refine ⟨Mark.leftBrace_reads g _, ?_⟩
    exact Mark.readsAll_closed (fun _ => entryMarks_reads entries true) (Mark.rightBrace_reads true rest) (by decide) (by decide)
  | call name arguments =>
    refine ⟨name.reads g (ends_cons _ (by decide) (by decide)), Mark.leftParen_reads true _, ?_⟩
    exact Mark.readsAll_closed (fun _ => listMarks_reads arguments) (Mark.rightParen_reads true rest) (by decide) (by decide)
  | member base name =>
    rw [marks, Mark.readsAll_append]
    refine ⟨marks_reads base g 6 ?_, Mark.dot_reads true _, name.reads true h, trivial⟩
    exact Token.ends_dot _ name.first_start
  | index base key =>
    rw [marks, List.append_assoc, Mark.readsAll_append]
    refine ⟨marks_reads base g 6 (ends_cons _ (by decide) (by decide)), Mark.leftBracket_reads true _, ?_⟩
    exact Mark.readsAll_closed (fun _ => marks_reads key true 0) (Mark.rightBracket_reads true rest) (by decide) (by decide)

theorem listMarks_reads (ps : List Phrase) {rest : List Char} (h : Ends rest) :
    Mark.ReadsAll (listMarks ps) rest := by
  match ps with
  | [] => trivial
  | p :: ps =>
    rw [listMarks, Mark.readsAll_append]
    exact ⟨marks_reads p true 0 (moreMarks_ends ps h), moreMarks_reads ps h⟩

theorem moreMarks_reads (ps : List Phrase) {rest : List Char} (h : Ends rest) :
    Mark.ReadsAll (moreMarks ps) rest := by
  match ps with
  | [] => trivial
  | p :: ps =>
    refine ⟨Mark.comma_reads true _, ?_⟩
    refine (Mark.readsAll_append _ _ _).2 ?_
    exact ⟨marks_reads p false 0 (moreMarks_ends ps h), moreMarks_reads ps h⟩

theorem entryMarks_reads (es : List (String × Phrase)) (g : Bool) {rest : List Char} (h : Ends rest) :
    Mark.ReadsAll (entryMarks g es) rest := by
  match es with
  | [] => trivial
  | (key, p) :: es =>
    refine ⟨quotedMark_reads g key _, Mark.colon_reads true _, ?_⟩
    refine (Mark.readsAll_append _ _ _).2 ?_
    exact ⟨marks_reads p false 0 (moreEntryMarks_ends es h), moreEntryMarks_reads es h⟩

theorem moreEntryMarks_reads (es : List (String × Phrase)) {rest : List Char} (h : Ends rest) :
    Mark.ReadsAll (moreEntryMarks es) rest := by
  match es with
  | [] => trivial
  | (key, p) :: es =>
    refine ⟨Mark.comma_reads true _, quotedMark_reads false key _, Mark.colon_reads true _, ?_⟩
    refine (Mark.readsAll_append _ _ _).2 ?_
    exact ⟨marks_reads p false 0 (moreEntryMarks_ends es h), moreEntryMarks_reads es h⟩

end

theorem tokenize_print (p : Phrase) (file : Option String) :
    ∃ ts last, tokenize p.print file = ts ++ [last] ∧ last.isFinish = true ∧
      Mark.Spelled ⟨.newline, "", ⟨Location.origin, Location.origin, file⟩⟩ (p.marks true 0) ts := by
  unfold tokenize print
  rw [String.toList_ofList]
  exact Mark.scanAll_text file 0 _ _ _ (marks_reads p true 0 Token.ends_nil) rfl

end Phrase

end DeskScript
