import DeskScript.Proofs.Token.DottedName
import DeskScript.Proofs.Token.Scan

set_option autoImplicit false

/-!
# Where a token ends

A token is found again when the text behind it changes: when a blank or a line end is put behind the whole text
(`scan_append`), and when all behind the token is taken away (`scan_alone`).
-/

namespace DeskScript

open DeskScript.Text

namespace Token

def isSeparator (c : Char) : Bool := c = ' ' || c = '\n'

theorem spanWhile_separated {p : Char → Bool} {s : Char} (hp : p s = false) (cs more : List Char) :
    spanWhile p (cs ++ s :: more) = ((spanWhile p cs).1, (spanWhile p cs).2 ++ s :: more) := by
  induction cs with
  | nil => simp [spanWhile, hp]
  | cons c cs ih => by_cases h : p c <;> simp [spanWhile, h, ih]

theorem beginsWith_separated {p : Char → Bool} {s : Char} (hp : p s = false) (cs more : List Char) :
    beginsWith p (cs ++ s :: more) = beginsWith p cs := by
  cases cs with
  | nil => exact hp
  | cons c cs => rfl

section

variable {s : Char} (hs : isSeparator s = true)

include hs

theorem isSeparator_cases : s = ' ' ∨ s = '\n' := by simpa [isSeparator] using hs

theorem isNameChar_of_separator : isNameChar s = false := by
  rcases isSeparator_cases hs with rfl | rfl <;> decide

theorem isNameStart_of_separator : isNameStart s = false := by
  rcases isSeparator_cases hs with rfl | rfl <;> decide

theorem isAsciiDigit_of_separator : isAsciiDigit s = false := by
  rcases isSeparator_cases hs with rfl | rfl <;> decide

theorem fractionSpan_separated (cs more : List Char) :
    fractionSpan (cs ++ s :: more) = ((fractionSpan cs).1, (fractionSpan cs).2 ++ s :: more) := by
  have hd := isAsciiDigit_of_separator hs
  cases cs with
  | nil => rcases isSeparator_cases hs with rfl | rfl <;> rfl
  | cons c cs =>
    by_cases hc : c = '.'
    · subst hc
      simp only [List.cons_append, fractionSpan, beginsWith_separated hd, spanWhile_separated hd]
      split <;> simp
    · simp [fractionSpan, hc]

theorem exponentSpan_separated (cs more : List Char) :
    exponentSpan (cs ++ s :: more) = ((exponentSpan cs).1, (exponentSpan cs).2 ++ s :: more) := by
  have hd := isAsciiDigit_of_separator hs
  have hsign : s ≠ 'e' ∧ s ≠ 'E' ∧ s ≠ '+' ∧ s ≠ '-' := by rcases isSeparator_cases hs with rfl | rfl <;> decide
  match cs with
  | [] => simp [exponentSpan, hsign]
  | [e] => simp [exponentSpan, beginsWith, hd, hsign]
  | e :: sign :: cs =>
    have hcs := beginsWith_separated hd cs more
    have hdigits := spanWhile_separated hd cs more
    by_cases he : e = 'e' ∨ e = 'E'
    · by_cases hdigit : isAsciiDigit sign
      · have h := spanWhile_separated hd (sign :: cs) more
        rw [List.cons_append] at h
        simp [exponentSpan, he, show beginsWith isAsciiDigit (sign :: cs) = true from hdigit,
          show beginsWith isAsciiDigit (sign :: (cs ++ s :: more)) = true from hdigit, h]
      · have hnone (rest : List Char) : beginsWith isAsciiDigit (sign :: rest) = false := by simpa [beginsWith] using hdigit
        by_cases hsigned : ((sign = '+' || sign = '-') && beginsWith isAsciiDigit cs) = true
        · simp only [List.cons_append, exponentSpan, decide_eq_true_eq, Bool.or_eq_true, he, hnone, hcs, hsigned, hdigits]
          simp
        · simp only [List.cons_append, exponentSpan, decide_eq_true_eq, Bool.or_eq_true, he, hnone, hcs, hsigned]
          simp
    · simp [exponentSpan, he]

theorem numberSpan_separated (cs more : List Char) :
    numberSpan (cs ++ s :: more) = ((numberSpan cs).1, (numberSpan cs).2 ++ s :: more) := by
  simp only [numberSpan, spanWhile_separated (isAsciiDigit_of_separator hs), fractionSpan_separated hs,
    exponentSpan_separated hs]

theorem scanVariable_separated (cs more : List Char) :
    scanVariable (cs ++ s :: more) =
      ⟨(scanVariable cs).content, (scanVariable cs).taken, (scanVariable cs).rest ++ s :: more⟩ := by
  unfold scanVariable
  rw [beginsWith_separated (isNameStart_of_separator hs), spanWhile_separated (isNameChar_of_separator hs)]
  split <;> rfl

theorem scanSymbol_separated (c : Char) (cs more : List Char) :
    scanSymbol c (cs ++ s :: more) =
      ⟨(scanSymbol c cs).content, (scanSymbol c cs).taken, (scanSymbol c cs).rest ++ s :: more⟩ := by
  cases cs with
  | nil =>
    have hpair : pairContent? c s = none := by
      rcases isSeparator_cases hs with rfl | rfl <;> simp [pairContent?]
    simp [scanSymbol, hpair]
  | cons d cs =>
    simp only [List.cons_append, scanSymbol]
    split <;> rfl

end

/-- A dotted name is found again in front of any text that does not go on with it. -/
theorem dottedSpan_again {isStart : Char → Bool} (hstart : ∀ c, isStart c = true → isNameChar c = true)
    (cs left : List Char) (hleft : stopsName isStart left = true) :
    dottedSpan isStart ((dottedSpan isStart cs).1 ++ left) = ((dottedSpan isStart cs).1, left) := by
  induction cs with
  | nil => exact dottedSpan_of_stops hleft
  | cons c rest ih =>
    by_cases h : (isNameChar c || (c = '.' && beginsWith isStart rest)) = true
    · -- a point is taken only before a name, whose first character is taken with it
      have hagain : (isNameChar c || (c = '.' && beginsWith isStart ((dottedSpan isStart rest).1 ++ left))) = true := by
        rw [Bool.or_eq_true] at h ⊢
        refine h.imp_right fun hpoint => ?_
        rw [Bool.and_eq_true] at hpoint ⊢
        refine ⟨hpoint.1, ?_⟩
        cases rest with
        | nil => simp [beginsWith] at hpoint
        | cons d rest =>
          have hd : isStart d = true := hpoint.2
          simp [dottedSpan, hstart d hd, beginsWith, hd]
      simp [dottedSpan, h, hagain, ih]
    · simpa [dottedSpan, h] using dottedSpan_of_stops hleft

theorem stopsName_append {body : List Char} (h : body.getLast? = some '"') (left left' : List Char) :
    stopsName isNameStart (body ++ left) = stopsName isNameStart (body ++ left') := by
  match body with
  | [] => simp at h
  | [c] =>
    obtain rfl : c = '"' := by simpa using h
    have hname : isNameChar '"' = false := by decide
    simp [stopsName, hname]
  | c :: d :: body => rfl

theorem beginsWith_append {p : Char → Bool} {cs : List Char} (h : cs ≠ []) (left : List Char) :
    beginsWith p (cs ++ left) = beginsWith p cs := by
  cases cs with
  | nil => contradiction
  | cons c cs => rfl

/-- A quoted text is found again whatever stands behind its closing quote. -/
theorem scanQuoted_again (quote : Char) (pieces : List Piece) (chars taken cs : List Char)
    (hfault : ∀ f, (scanQuoted quote pieces chars taken cs).content ≠ .fault f) :
    ∃ body, body.getLast? = some quote ∧
      (scanQuoted quote pieces chars taken cs).taken = taken.reverse ++ body ∧
      ∀ left, scanQuoted quote pieces chars taken (body ++ left) =
        ⟨(scanQuoted quote pieces chars taken cs).content, taken.reverse ++ body, left⟩ := by
  -- on the scanner's own recursion, one case for each kind of character before the closing quote
  fun_induction scanQuoted quote pieces chars taken cs with
  | case1 | case3 | case4 => exact absurd rfl (hfault _)
  | case2 pieces chars taken rest =>
    exact ⟨[quote], rfl, by simp, fun left => by simpa using scanQuoted_close quote pieces chars taken left⟩
  | case5 pieces chars taken e rest hq hn ih =>
    obtain ⟨body, hlast, htaken, hagain⟩ := ih hfault
    have hne : body ≠ [] := by rintro rfl; simp at hlast
    refine ⟨'\\' :: e :: body, ?_, by simp [htaken], fun left => ?_⟩
    · rw [List.getLast?_cons_cons, List.getLast?_cons, hlast]
      rfl
    · rw [List.cons_append, List.cons_append, scanQuoted_escape pieces chars taken e _ (fun h => hq h.symm), hagain]
      simp
  | case6 pieces chars taken c rest hq hn hb hv name ih =>
    obtain ⟨body, hlast, htaken, hagain⟩ := ih hfault
    simp only [Bool.and_eq_true, decide_eq_true_eq] at hv
    obtain ⟨⟨rfl, rfl⟩, hstart⟩ := hv
    have hne : body ≠ [] := by rintro rfl; simp at hlast
    refine ⟨'$' :: (name.1 ++ body), ?_, by simp [htaken], fun left => ?_⟩
    · rw [List.getLast?_cons, List.getLast?_append, hlast]
      rfl
    · have hsplit : body ++ (scanQuoted '"' (.reference (String.ofList name.1) :: flushText pieces chars) []
          (name.1.reverse ++ '$' :: taken) name.2).rest = name.2 := by
        have h := scanQuoted_split '"' (.reference (String.ofList name.1) :: flushText pieces chars) []
          (name.1.reverse ++ '$' :: taken) name.2
        rwa [htaken, List.append_assoc, List.append_right_inj] at h
      have hstops : stopsName isNameStart (body ++ left) = true := by
        have h := dottedSpan_stops isNameStart rest
        rwa [← show name.2 = (dottedSpan isNameStart rest).2 from rfl, ← hsplit, stopsName_append hlast _ left] at h
      have hname := dottedSpan_again isNameChar_of_isNameStart rest (body ++ left) hstops
      have hbegins : beginsWith isNameStart (name.1 ++ (body ++ left)) = true := by
        cases rest with
        | nil => simp [beginsWith] at hstart
        | cons d rest =>
          have hd : isNameStart d = true := hstart
          simp [name, dottedSpan, isNameChar_of_isNameStart d hd, beginsWith, hd]
      rw [List.cons_append, List.append_assoc, scanQuoted_reference pieces chars taken hbegins hname, hagain]
      simp [name]
  | case7 pieces chars taken c rest hq hn hb hv ih =>
    obtain ⟨body, hlast, htaken, hagain⟩ := ih hfault
    refine ⟨c :: body, ?_, by simp [htaken], fun left => ?_⟩
    · rw [List.getLast?_cons, hlast]
      rfl
    · have hsplit : body ++ (scanQuoted quote pieces (c :: chars) (c :: taken) rest).rest = rest := by
        have h := scanQuoted_split quote pieces (c :: chars) (c :: taken) rest
        rwa [htaken, List.append_assoc, List.append_right_inj] at h
      have hne : body ≠ [] := by rintro rfl; simp at hlast
      have hbegins : beginsWith isNameStart (body ++ left) = beginsWith isNameStart rest := by
        rw [← hsplit, beginsWith_append hne, beginsWith_append hne]
      rw [List.cons_append, scanQuoted_other pieces chars taken _ hq hn hb (by rw [hbegins]; simpa using hv), hagain]
      simp

theorem spanWhile_all (p : Char → Bool) (cs : List Char) : ∀ c ∈ (spanWhile p cs).1, p c = true := by
  induction cs with
  | nil => simp [spanWhile]
  | cons c cs ih =>
    by_cases h : p c
    · simpa [spanWhile, h] using ih
    · simp [spanWhile, h]

theorem spanWhile_again {p : Char → Bool} (cs : List Char) {left : List Char} (h : beginsWith p left = false) :
    spanWhile p ((spanWhile p cs).1 ++ left) = ((spanWhile p cs).1, left) :=
  spanWhile_append p _ left (spanWhile_all p cs) h

theorem spanWhile_alone (p : Char → Bool) (cs : List Char) : spanWhile p (spanWhile p cs).1 = ((spanWhile p cs).1, []) := by
  have hagain : beginsWith p [] = false := rfl
  simpa using spanWhile_again cs hagain

def StopsFraction (left : List Char) : Prop := beginsWith isAsciiDigit left = false ∧ left.head? ≠ some '.'

theorem exponentSpan_stopsFraction (cs : List Char) : StopsFraction (exponentSpan cs).1 := by
  have hmark (e : Char) (he : (e = 'e' || e = 'E') = true) (ds : List Char) : StopsFraction (e :: ds) := by
    rw [Bool.or_eq_true, decide_eq_true_eq, decide_eq_true_eq] at he
    rcases he with rfl | rfl <;> exact ⟨rfl, by simp⟩
  have hnil : StopsFraction [] := ⟨rfl, by simp⟩
  unfold exponentSpan
  split
  · split
    · rename_i e rest he
      split
      · exact hmark e he _
      · split
        · split
          · exact hmark e he _
          · exact hnil
        · exact hnil
    · exact hnil
  · exact hnil

theorem exponentSpan_alone (cs : List Char) : exponentSpan (exponentSpan cs).1 = ((exponentSpan cs).1, []) := by
  have hdigits (rest : List Char) (h : beginsWith isAsciiDigit rest = true) :
      beginsWith isAsciiDigit (spanWhile isAsciiDigit rest).1 = true := by
    cases rest with
    | nil => exact h
    | cons d rest =>
      have hd : isAsciiDigit d = true := h
      simp [spanWhile, hd, beginsWith]
  cases cs with
  | nil => rfl
  | cons e rest =>
    by_cases he : (e = 'e' || e = 'E') = true
    · by_cases hplain : beginsWith isAsciiDigit rest = true
      · simp only [exponentSpan, he, hplain, if_true, hdigits rest hplain, spanWhile_alone]
      · cases rest with
        | nil => simp [exponentSpan, beginsWith]
        | cons sign rest =>
          have hsign (ds : List Char) : beginsWith isAsciiDigit (sign :: ds) = false := by simpa [beginsWith] using hplain
          by_cases hsigned : ((sign = '+' || sign = '-') && beginsWith isAsciiDigit rest) = true
          · have hrest := (Bool.and_eq_true_iff.1 hsigned).2
            have hagain : ((sign = '+' || sign = '-') && beginsWith isAsciiDigit (spanWhile isAsciiDigit rest).1) = true := by
              rw [hdigits rest hrest, (Bool.and_eq_true_iff.1 hsigned).1]
              rfl
            simp only [exponentSpan, he, hsign, hsigned, hagain, if_true, Bool.false_eq_true, if_false, spanWhile_alone]
          · simp only [exponentSpan, he, hsign, hsigned, if_true, Bool.false_eq_true, if_false]
    · simp only [exponentSpan, he, Bool.false_eq_true, if_false]

theorem fractionSpan_again (cs : List Char) {left : List Char} (h : StopsFraction left) :
    fractionSpan ((fractionSpan cs).1 ++ left) = ((fractionSpan cs).1, left) := by
  have hnone : fractionSpan left = ([], left) := by
    unfold fractionSpan
    split
    · exact absurd rfl h.2
    · rfl
  match cs with
  | [] => exact hnone
  | c :: rest =>
    by_cases hc : c = '.'
    · subst hc
      by_cases hrest : beginsWith isAsciiDigit rest = true
      · match rest with
        | d :: rest =>
          have hd : isAsciiDigit d = true := hrest
          have hagain := spanWhile_again (d :: rest) h.1
          simp only [spanWhile, hd, if_true, List.cons_append] at hagain
          simp [fractionSpan, spanWhile, hd, beginsWith, hagain]
      · simpa [fractionSpan, hrest] using hnone
    · simpa [fractionSpan, hc] using hnone

theorem numberSpan_alone (cs : List Char) : numberSpan (numberSpan cs).1 = ((numberSpan cs).1, []) := by
  have hfraction (cs : List Char) {left : List Char} (h : beginsWith isAsciiDigit left = false) :
      beginsWith isAsciiDigit ((fractionSpan cs).1 ++ left) = false := by
    unfold fractionSpan
    split
    · split
      · rfl
      · exact h
    · exact h
  have hstops := exponentSpan_stopsFraction (fractionSpan (spanWhile isAsciiDigit cs).2).2
  have hwhole := spanWhile_again cs (hfraction (spanWhile isAsciiDigit cs).2 hstops.1)
  simp only [numberSpan, List.append_assoc, hwhole, fractionSpan_again _ hstops, exponentSpan_alone]

/-- Which scanner reads a token depends on its first character alone. -/
theorem scan_cases (c : Char) :
    (c = '\n' ∧ ∀ rest, scan c rest = ⟨.newline, [c], rest⟩) ∨
    (∀ rest, scan c rest = scanQuoted c [] [] [c] rest) ∨
    (∀ rest, scan c rest = ⟨.number (numberValue (numberSpan (c :: rest)).1), (numberSpan (c :: rest)).1,
      (numberSpan (c :: rest)).2⟩) ∨
    (c = '$' ∧ ∀ rest, scan c rest = scanVariable rest) ∨
    (∀ rest, scan c rest = ⟨wordContent (spanWhile isNameChar (c :: rest)).1, (spanWhile isNameChar (c :: rest)).1,
      (spanWhile isNameChar (c :: rest)).2⟩) ∨
    ∀ rest, scan c rest = scanSymbol c rest := by
  by_cases hnewline : c = '\n'
  · exact .inl ⟨hnewline, fun rest => by simp [scan, hnewline]⟩
  by_cases hquote : c = '"' ∨ c = '\''
  · exact .inr (.inl fun rest => by simp [scan, hnewline, hquote])
  by_cases hdigit : isAsciiDigit c = true
  · exact .inr (.inr (.inl fun rest => by simp [scan, hnewline, hquote, hdigit]))
  by_cases hvar : c = '$'
  · subst hvar
    exact .inr (.inr (.inr (.inl ⟨rfl, fun rest => by simp [scan, hdigit]⟩)))
  by_cases hname : isNameStart c = true
  · exact .inr (.inr (.inr (.inr (.inl fun rest => by simp [scan, hnewline, hquote, hdigit, hvar, hname]))))
  · exact .inr (.inr (.inr (.inr (.inr fun rest => by simp [scan, hnewline, hquote, hdigit, hvar, hname]))))

/-- A token is found again when a blank or a line end is put behind the text. -/
theorem scan_append {c s : Char} {rest : List Char} (hs : isSeparator s = true)
    (hfault : ∀ f, (scan c rest).content ≠ .fault f) (more : List Char) :
    scan c (rest ++ s :: more) = ⟨(scan c rest).content, (scan c rest).taken, (scan c rest).rest ++ s :: more⟩ := by
  obtain ⟨-, h⟩ | h | h | ⟨-, h⟩ | h | h := scan_cases c
  · rw [h, h]
  · rw [h] at hfault
    obtain ⟨body, -, htaken, hagain⟩ := scanQuoted_again c [] [] [c] rest hfault
    have hsplit := scanQuoted_split c [] [] [c] rest
    rw [htaken, List.append_assoc, List.append_right_inj] at hsplit
    rw [h, h, htaken, ← hagain, ← List.append_assoc, hsplit]
  · rw [h, h, ← List.cons_append, numberSpan_separated hs]
  · rw [h, h, scanVariable_separated hs]
  · rw [h, h, ← List.cons_append, spanWhile_separated (isNameChar_of_separator hs)]
  · rw [h, h, scanSymbol_separated hs]

/-- A token is found again when all behind it is taken away. -/
theorem scan_alone {c : Char} {cs rest : List Char} (hfault : ∀ f, (scan c rest).content ≠ .fault f)
    (htaken : (scan c rest).taken = c :: cs) : scan c cs = ⟨(scan c rest).content, c :: cs, []⟩ := by
  obtain ⟨-, h⟩ | h | h | ⟨hc, h⟩ | h | h := scan_cases c
  · rw [h] at htaken ⊢
    obtain rfl : [] = cs := by simpa using htaken
    rw [h]
  · rw [h] at hfault htaken ⊢
    obtain ⟨body, -, hbody, hagain⟩ := scanQuoted_again c [] [] [c] rest hfault
    obtain rfl : body = cs := by simpa [hbody] using htaken
    simpa [h] using hagain []
  · rw [h] at htaken ⊢
    rw [h, ← htaken, numberSpan_alone]
  · rw [h] at hfault htaken ⊢
    subst hc
    rw [h]
    unfold scanVariable at hfault htaken ⊢
    by_cases hstart : beginsWith isNameStart rest = true
    · simp only [hstart, if_true, List.cons.injEq, true_and] at htaken ⊢
      have hcs : beginsWith isNameStart cs = true := by
        match rest with
        | d :: rest =>
          have hd : isNameStart d = true := hstart
          simp [← htaken, spanWhile, isNameChar_of_isNameStart d hd, beginsWith, hd]
      rw [← htaken, spanWhile_alone, htaken, if_pos hcs]
    · simp [hstart] at hfault
  · rw [h] at htaken ⊢
    rw [h, ← htaken, spanWhile_alone]
  · rw [h] at htaken ⊢
    rw [h]
    unfold scanSymbol at htaken ⊢
    split at htaken
    · obtain rfl : [] = cs := by simpa using htaken
      rfl
    · split at htaken
      · rename_i hpair
        obtain rfl : [_] = cs := by simpa using htaken
        simp [hpair]
      · obtain rfl : [] = cs := by simpa using htaken
        simp

end Token

end DeskScript
