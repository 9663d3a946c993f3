import DeskScript.Token.Lexer

set_option autoImplicit false

/-!
# What reading finds

Laws of the scanners: what a token can be, how a list of tokens goes on behind a gap and a token, and what is found at
the front of a text that begins with a name, a number, a quoted text or a symbol.
-/

namespace DeskScript

open DeskScript.Text

namespace Token

theorem textContent_ne_finish (pieces : List Piece) (chars : List Char) : textContent pieces chars ≠ .finish := by
  unfold textContent
  split <;> simp

theorem scanQuoted_ne_finish (quote : Char) (pieces : List Piece) (chars taken cs : List Char) :
    (scanQuoted quote pieces chars taken cs).content ≠ .finish := by
  fun_induction scanQuoted quote pieces chars taken cs with
  | case1 | case3 | case4 => simp
  | case2 => exact textContent_ne_finish _ _
  | case5 _ _ _ _ _ _ _ ih | case6 _ _ _ _ _ _ _ _ _ _ ih | case7 _ _ _ _ _ _ _ _ _ ih => exact ih

theorem scanSymbol_ne_finish (c : Char) (rest : List Char) : (scanSymbol c rest).content ≠ .finish := by
  have single : singleContent c ≠ .finish := by
    unfold singleContent
    split <;> simp
  unfold scanSymbol
  split
  · exact single
  · split
    · rename_i content h
      unfold pairContent? at h
      grind
    · exact single

/-- Only the end of the text gives the token that ends a list. -/
theorem scan_ne_finish (c : Char) (rest : List Char) : (scan c rest).content ≠ .finish := by
  unfold scan
  split
  · simp
  · split
    · exact scanQuoted_ne_finish _ _ _ _ _
    · split
      · simp
      · split
        · unfold scanVariable
          split <;> simp
        · split
          · simp only [wordContent]
            split <;> simp
          · exact scanSymbol_ne_finish c rest

theorem isFinish_eq_false {t : Token} (h : t.content ≠ .finish) : t.isFinish = false := by
  unfold isFinish
  split
  · contradiction
  · rfl

theorem isFinish_iff (t : Token) : t.isFinish = true ↔ t.content = .finish := by
  unfold isFinish
  split <;> simp_all

theorem lexemeOf_eq {content : Content} (taken : List Char) (h : content ≠ .newline) :
    lexemeOf content taken = String.ofList taken := by
  unfold lexemeOf
  split
  · contradiction
  · rfl

theorem scanAll_of_gap (file : Option String) {depth : Nat} (here : Location) {cs gap : List Char}
    (h : gapSpan depth false cs = (gap, [])) :
    scanAll file depth here cs = [⟨.finish, "", ⟨here.after gap, here.after gap, file⟩⟩] := by
  rw [scanAll]
  split
  · rw [h]
  · rename_i heq
    simp [h] at heq

theorem scanAll_of_token (file : Option String) {depth : Nat} (here : Location) {cs gap rest : List Char} {c : Char}
    (h : gapSpan depth false cs = (gap, c :: rest)) :
    scanAll file depth here cs =
      ⟨(scan c rest).content, lexemeOf (scan c rest).content (scan c rest).taken,
        ⟨here.after gap, (here.after gap).after (scan c rest).taken, file⟩⟩ ::
      scanAll file (depthAfter depth (scan c rest).content) ((here.after gap).after (scan c rest).taken)
        (scan c rest).rest := by
  rw [scanAll]
  split
  · rename_i heq
    simp [h] at heq
  · rename_i c' rest' heq
    obtain ⟨rfl, rfl⟩ : c = c' ∧ rest = rest' := by simpa [h] using heq
    simp only [h]

theorem isAsciiDigit_iff (c : Char) : isAsciiDigit c = true ↔ 48 ≤ c.toNat ∧ c.toNat ≤ 57 := by
  simp [isAsciiDigit, Char.le_def, UInt32.le_iff_toNat_le]

theorem isNameStart_not_digit {c : Char} (h : isNameStart c = true) : isAsciiDigit c = false := by
  rw [Bool.eq_false_iff]
  intro hd
  have hc := (isAsciiDigit_iff c).1 hd
  have hlt : c.toNat < 128 := by omega
  simp only [isNameStart, isLetter, isAsciiLetter, hlt, if_true, Char.le_def, UInt32.le_iff_toNat_le, Bool.or_eq_true,
    Bool.and_eq_true, decide_eq_true_eq, Char.toNat_val, Char.reduceToNat] at h
  rcases h with h | rfl
  · omega
  · simp at hc

theorem isNameChar_of_digit {c : Char} (h : isAsciiDigit c = true) : isNameChar c = true := by
  have hc := (isAsciiDigit_iff c).1 h
  have hlt : c.toNat < 128 := by omega
  simp [isNameChar, isNumeral, hlt, h]

def isGapChar (c : Char) : Bool := c = '\n' || c = ' ' || c = '\t' || c = '\r' || c = '#'

theorem not_gapChar_of {p : Char → Bool} (hgaps : ['\n', ' ', '\t', '\r', '#'].any p = false) {c : Char} (h : p c = true) :
    isGapChar c = false := by
  rw [Bool.eq_false_iff]
  intro hgap
  have hmem : c ∈ ['\n', ' ', '\t', '\r', '#'] := by simpa [isGapChar, or_assoc] using hgap
  exact Bool.eq_false_iff.1 hgaps (List.any_eq_true.2 ⟨c, hmem, h⟩)

theorem isGapChar_of_digit {c : Char} (h : isAsciiDigit c = true) : isGapChar c = false := not_gapChar_of (by decide) h

theorem isGapChar_of_nameStart {c : Char} (h : isNameStart c = true) : isGapChar c = false := not_gapChar_of (by decide) h

theorem gapSpan_of_not_gapChar (depth : Nat) {c : Char} (cs : List Char) (h : isGapChar c = false) :
    gapSpan depth false (c :: cs) = ([], c :: cs) := by
  simp only [isGapChar, Bool.or_eq_false_iff, decide_eq_false_iff_not] at h
  obtain ⟨⟨⟨⟨hn, hb⟩, ht⟩, hr⟩, hh⟩ := h
  simp [gapSpan, hn, hb, ht, hr, hh]

theorem gapSpan_blank (depth : Nat) {c : Char} (cs : List Char) (h : isGapChar c = false) :
    gapSpan depth false (' ' :: c :: cs) = ([' '], c :: cs) := by
  rw [gapSpan, gapSpan_of_not_gapChar depth cs h]
  simp

theorem spanWhile_append (p : Char → Bool) (xs rest : List Char) (hxs : ∀ c ∈ xs, p c = true)
    (hrest : beginsWith p rest = false) : spanWhile p (xs ++ rest) = (xs, rest) := by
  induction xs with
  | nil =>
    cases rest with
    | nil => rfl
    | cons c rest => simpa [spanWhile, beginsWith] using hrest
  | cons c xs ih =>
    have hc := hxs c (by simp)
    have htail := ih (fun d hd => hxs d (by simp [hd]))
    simp [spanWhile, hc, htail]

structure Ends (rest : List Char) : Prop where
  name : beginsWith isNameChar rest = false
  fraction : fractionSpan rest = ([], rest)

theorem ends_nil : Ends [] := ⟨rfl, rfl⟩

theorem ends_cons {c : Char} (cs : List Char) (hname : isNameChar c = false) (hdot : c ≠ '.') : Ends (c :: cs) := by
  refine ⟨hname, ?_⟩
  unfold fractionSpan
  split
  · simp_all
  · rfl

theorem ends_dot {c : Char} (cs : List Char) (h : isNameStart c = true) : Ends ('.' :: c :: cs) :=
  ⟨show isNameChar '.' = false by decide, by simp [fractionSpan, beginsWith, isNameStart_not_digit h]⟩

theorem exponentSpan_of_ends {rest : List Char} (h : Ends rest) : exponentSpan rest = ([], rest) := by
  cases rest with
  | nil => rfl
  | cons e rest =>
    have he : e ≠ 'e' ∧ e ≠ 'E' := by
      constructor
      · rintro rfl
        exact absurd h.name (show ¬ isNameChar 'e' = false by decide)
      · rintro rfl
        exact absurd h.name (show ¬ isNameChar 'E' = false by decide)
    simp [exponentSpan, he.1, he.2]

theorem beginsWith_digit_of_ends {rest : List Char} (h : Ends rest) : beginsWith isAsciiDigit rest = false := by
  cases rest with
  | nil => rfl
  | cons c rest =>
    rw [Bool.eq_false_iff]
    intro hd
    have := isNameChar_of_digit hd
    have hname : isNameChar c = false := h.name
    simp_all

theorem fractionSpan_point {d : Char} {ds rest : List Char} (hd : isAsciiDigit d = true)
    (hds : ∀ e ∈ ds, isAsciiDigit e = true) (h : Ends rest) :
    fractionSpan ('.' :: d :: ds ++ rest) = ('.' :: d :: ds, rest) := by
  have hdigits : spanWhile isAsciiDigit (d :: (ds ++ rest)) = (d :: ds, rest) :=
    spanWhile_append isAsciiDigit (d :: ds) rest (by simpa [hd] using hds) (beginsWith_digit_of_ends h)
  simp [fractionSpan, beginsWith, hd, hdigits]

theorem scan_number {c : Char} {cs fraction rest : List Char} (hc : isAsciiDigit c = true)
    (hcs : ∀ d ∈ cs, isAsciiDigit d = true) (hstop : beginsWith isAsciiDigit (fraction ++ rest) = false)
    (hfraction : fractionSpan (fraction ++ rest) = (fraction, rest)) (h : Ends rest) :
    scan c (cs ++ fraction ++ rest) = ⟨.number (numberValue (c :: cs ++ fraction)), c :: cs ++ fraction, rest⟩ := by
  have hrange := (isAsciiDigit_iff c).1 hc
  have hn : c ≠ '\n' := by rintro rfl; simp at hrange
  have hq : c ≠ '"' := by rintro rfl; simp at hrange
  have hs : c ≠ '\'' := by rintro rfl; simp at hrange
  have hdigits : spanWhile isAsciiDigit (c :: (cs ++ fraction ++ rest)) = (c :: cs, fraction ++ rest) := by
    rw [List.append_assoc]
    exact spanWhile_append isAsciiDigit (c :: cs) (fraction ++ rest) (by simpa [hc] using hcs) hstop
  have hspan : numberSpan (c :: (cs ++ fraction ++ rest)) = (c :: cs ++ fraction, rest) := by
    simp only [numberSpan, hdigits, hfraction, exponentSpan_of_ends h, List.append_nil]
  simp only [scan, hspan, hc]
  simp [hn, hq, hs]

theorem scan_name {c : Char} {cs rest : List Char} (hc : isNameStart c = true) (hcs : ∀ d ∈ cs, isNameChar d = true)
    (h : Ends rest) : scan c (cs ++ rest) = ⟨wordContent (c :: cs), c :: cs, rest⟩ := by
  have hn : c ≠ '\n' := by rintro rfl; exact absurd hc (by decide)
  have hq : c ≠ '"' := by rintro rfl; exact absurd hc (by decide)
  have hs : c ≠ '\'' := by rintro rfl; exact absurd hc (by decide)
  have hv : c ≠ '$' := by rintro rfl; exact absurd hc (by decide)
  have hspan : spanWhile isNameChar (c :: (cs ++ rest)) = (c :: cs, rest) :=
    spanWhile_append isNameChar (c :: cs) rest (by simpa [isNameChar_of_isNameStart c hc] using hcs) h.name
  simp [scan, hn, hq, hs, hv, isNameStart_not_digit hc, hc, hspan]

theorem scan_variable {c : Char} {cs rest : List Char} (hc : isNameStart c = true)
    (hcs : ∀ d ∈ cs, isNameChar d = true) (h : Ends rest) :
    scan '$' (c :: cs ++ rest) = ⟨.var (String.ofList (c :: cs)), '$' :: c :: cs, rest⟩ := by
  have hspan : spanWhile isNameChar (c :: (cs ++ rest)) = (c :: cs, rest) :=
    spanWhile_append isNameChar (c :: cs) rest (by simpa [isNameChar_of_isNameStart c hc] using hcs) h.name
  have hdigit : isAsciiDigit '$' = false := by decide
  simp [scan, hdigit, scanVariable, beginsWith, hc, hspan]

def isSymbolChar (c : Char) : Bool :=
  !(c = '\n' || c = '"' || c = '\'' || isAsciiDigit c || c = '$' || isNameStart c)

theorem scan_symbolChar {c : Char} (rest : List Char) (h : isSymbolChar c = true) : scan c rest = scanSymbol c rest := by
  simp only [isSymbolChar, Bool.not_eq_true', Bool.or_eq_false_iff, decide_eq_false_iff_not] at h
  obtain ⟨⟨⟨⟨⟨hn, hq⟩, hs⟩, hd⟩, hv⟩, hname⟩ := h
  simp [scan, hn, hq, hs, hd, hv, hname]

theorem scan_single {c : Char} {rest : List Char} (h : isSymbolChar c = true)
    (hpair : ∀ d, rest.head? = some d → pairContent? c d = none) :
    scan c rest = ⟨singleContent c, [c], rest⟩ := by
  rw [scan_symbolChar rest h]
  cases rest with
  | nil => rfl
  | cons d rest => simp [scanSymbol, hpair d rfl]

theorem scan_pair {c d : Char} {content : Content} (rest : List Char) (h : isSymbolChar c = true)
    (hpair : pairContent? c d = some content) : scan c (d :: rest) = ⟨content, [c, d], rest⟩ := by
  rw [scan_symbolChar (d :: rest) h]
  simp [scanSymbol, hpair]

theorem scanQuoted_close (quote : Char) (pieces : List Piece) (chars taken rest : List Char) :
    scanQuoted quote pieces chars taken (quote :: rest) = ⟨textContent pieces chars, (quote :: taken).reverse, rest⟩ := by
  rw [scanQuoted.eq_def]
  simp

theorem scanQuoted_escape {quote : Char} (pieces : List Piece) (chars taken : List Char) (e : Char) (rest : List Char)
    (hquote : quote ≠ '\\') :
    scanQuoted quote pieces chars taken ('\\' :: e :: rest) =
      scanQuoted quote pieces (unescape e :: chars) (e :: '\\' :: taken) rest := by
  have h : ¬ '\\' = quote := fun e => hquote e.symm
  rw [scanQuoted.eq_def]
  simp [h]

theorem scanQuoted_reference (pieces : List Piece) (chars taken : List Char) {rest name left : List Char}
    (hstart : beginsWith isNameStart rest = true) (hname : dottedSpan isNameStart rest = (name, left)) :
    scanQuoted '"' pieces chars taken ('$' :: rest) =
      scanQuoted '"' (.reference (String.ofList name) :: flushText pieces chars) [] (name.reverse ++ '$' :: taken) left := by
  rw [scanQuoted.eq_def]
  simp [hstart, hname]

theorem scanQuoted_other {quote c : Char} (pieces : List Piece) (chars taken rest : List Char) (hq : c ≠ quote)
    (hn : c ≠ '\n') (hb : c ≠ '\\') (hv : (quote = '"' && c = '$' && beginsWith isNameStart rest) = false) :
    scanQuoted quote pieces chars taken (c :: rest) = scanQuoted quote pieces (c :: chars) (c :: taken) rest := by
  rw [scanQuoted.eq_def]
  simp only [hq, hn, hb, hv, if_false, Bool.false_eq_true]

theorem scanQuoted_plain {quote c : Char} (pieces : List Piece) (chars taken rest : List Char) (hq : c ≠ quote)
    (hn : c ≠ '\n') (hb : c ≠ '\\') (hv : quote ≠ '"' ∨ c ≠ '$') :
    scanQuoted quote pieces chars taken (c :: rest) = scanQuoted quote pieces (c :: chars) (c :: taken) rest := by
  refine scanQuoted_other pieces chars taken rest hq hn hb ?_
  rcases hv with hv | hv <;> simp [hv]

inductive Encodes (quote c : Char) : List Char → Prop where
  | plain (hq : c ≠ quote) (hn : c ≠ '\n') (hb : c ≠ '\\') (hv : quote ≠ '"' ∨ c ≠ '$') : Encodes quote c [c]
  | escape {e : Char} (he : unescape e = c) : Encodes quote c ['\\', e]

theorem scanQuoted_encoded {quote : Char} (hquote : quote ≠ '\\') {encode : Char → List Char}
    (hencode : ∀ c, Encodes quote c (encode c)) (pieces : List Piece) (chars taken cs rest : List Char) :
    scanQuoted quote pieces chars taken (cs.flatMap encode ++ rest) =
      scanQuoted quote pieces (cs.reverse ++ chars) ((cs.flatMap encode).reverse ++ taken) rest := by
  induction cs generalizing chars taken with
  | nil => rfl
  | cons c cs ih =>
    have hc := hencode c
    rw [List.flatMap_cons]
    generalize encode c = written at hc
    cases hc with
    | plain hq hn hb hv =>
      rw [List.append_assoc, List.singleton_append, scanQuoted_plain pieces chars taken _ hq hn hb hv, ih]
      simp
    | escape he =>
      rw [List.append_assoc, List.cons_append, List.singleton_append, scanQuoted_escape pieces chars taken _ _ hquote,
        he, ih]
      simp

theorem tokenize_single (file : Option String) (c : Char) (cs : List Char) (hgap : isGapChar c = false)
    (hrest : (scan c cs).rest = []) : ∃ span stop,
      tokenize (String.ofList (c :: cs)) file =
        [⟨(scan c cs).content, lexemeOf (scan c cs).content (scan c cs).taken, span⟩, ⟨.finish, "", stop⟩] := by
  unfold tokenize
  rw [String.toList_ofList, scanAll_of_token file _ (gapSpan_of_not_gapChar 0 cs hgap), hrest]
  exact ⟨_, _, congrArg _ (scanAll_of_gap file _ rfl)⟩

end Token

end DeskScript
