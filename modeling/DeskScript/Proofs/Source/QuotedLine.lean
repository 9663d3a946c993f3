import DeskScript.Proofs.Syntax.Confined
import DeskScript.Proofs.Syntax.Giving
import DeskScript.Proofs.Token.Tiling
import DeskScript.Syntax.Statement
import Mathlib.Data.List.TakeWhile
import Mathlib.Data.Nat.Digits.Defs

set_option autoImplicit false

/-!
# The line that a diagnostic quotes

Locations count line ends of one kind, `\n`, while a source is cut into lines at every character that ends a line. Up to
a token both agree if the text before it has no other line end than `\n` and `\r\n`: then the line with the token's
number has the token's first character at the token's column. Main statement: `quotes_line`.
-/

namespace DeskScript

namespace Text

def endsPlainly : List Char → Bool
  | [] => true
  | '\r' :: '\n' :: rest => endsPlainly rest
  | c :: rest => (c = '\n' || !isLineEnd c) && endsPlainly rest

theorem endsPlainly_cons {c : Char} {rest : List Char} (h : endsPlainly (c :: rest) = true) :
    (∃ more, c = '\r' ∧ rest = '\n' :: more ∧ endsPlainly more = true) ∨
      (c = '\n' ∨ isLineEnd c = false) ∧ endsPlainly rest = true := by
  rw [endsPlainly.eq_def] at h
  split at h
  · contradiction
  · rename_i more heq
    obtain ⟨rfl, rfl⟩ := List.cons.inj heq
    exact .inl ⟨more, rfl, rfl, h⟩
  · rename_i heq
    obtain ⟨rfl, rfl⟩ := List.cons.inj heq
    right
    simpa using h

theorem linesAux_other {c : Char} (line : List Char) (begun : Bool) (rest : List Char) (h : isLineEnd c = false) :
    linesAux line begun (c :: rest) = linesAux (c :: line) true rest := by
  rw [linesAux.eq_def]
  split
  · contradiction
  · rename_i heq
    obtain ⟨rfl, -⟩ := List.cons.inj heq
    exact absurd h (by decide)
  · rename_i heq
    obtain ⟨rfl, rfl⟩ := List.cons.inj heq
    rw [h]
    rfl

theorem linesAux_newline (line : List Char) (begun : Bool) (rest : List Char) :
    linesAux line begun ('\n' :: rest) = line.reverse :: linesAux [] false rest := by
  rw [linesAux.eq_def]
  split
  · contradiction
  · rename_i heq
    simp at heq
  · rename_i heq
    obtain ⟨rfl, rfl⟩ := List.cons.inj heq
    rfl

theorem linesAux_return (line : List Char) (begun : Bool) (rest : List Char) :
    linesAux line begun ('\r' :: '\n' :: rest) = line.reverse :: linesAux [] false rest := by
  rw [linesAux]

theorem linesAux_begun (line rest : List Char) :
    ∃ more, (linesAux line true rest)[0]? = some (line.reverse ++ more) := by
  induction rest generalizing line with
  | nil => exact ⟨[], by simp [linesAux]⟩
  | cons c rest ih =>
    rw [linesAux.eq_def]
    split
    · contradiction
    · exact ⟨[], by simp⟩
    · rename_i heq
      obtain ⟨rfl, rfl⟩ := List.cons.inj heq
      split
      · exact ⟨[], by simp⟩
      · obtain ⟨more, hmore⟩ := ih (c :: line)
        exact ⟨c :: more, by rw [hmore, List.reverse_cons, List.append_assoc, List.singleton_append]⟩

def lastLine (cs : List Char) : List Char := (cs.reverse.takeWhile (· ≠ '\n')).reverse

theorem lastLine_append_newline (xs ys : List Char) : lastLine (xs ++ '\n' :: ys) = lastLine ys := by
  have hcut (rs : List Char) : (rs ++ '\n' :: xs.reverse).takeWhile (· ≠ '\n') = rs.takeWhile (· ≠ '\n') := by
    induction rs with
    | nil => rfl
    | cons r rs ih =>
      rw [List.cons_append, List.takeWhile_cons, List.takeWhile_cons, ih]
  unfold lastLine
  rw [List.reverse_append, List.reverse_cons, List.append_assoc, List.singleton_append, hcut]

theorem lastLine_eq_self {cs : List Char} (h : '\n' ∉ cs) : lastLine cs = cs := by
  unfold lastLine
  rw [List.takeWhile_eq_self_iff.2, List.reverse_reverse]
  intro c hc
  have hne : c ≠ '\n' := fun e => h (e ▸ List.mem_reverse.1 hc)
  simpa using hne

/-- Behind lines that end plainly, a character stands on the line that is counted for it, behind what stands before it on
that line. -/
theorem linesAux_at (line : List Char) (begun : Bool) (before : List Char) (c : Char) (after : List Char)
    (hline : '\n' ∉ line) (hplain : endsPlainly (before ++ [c]) = true) (hc : c ≠ '\n') :
    ∃ more, (linesAux line begun (before ++ c :: after))[before.count '\n']? =
      some (lastLine (line.reverse ++ before) ++ c :: more) := by
  -- on the text before the character; `\r\n` is taken at once
  induction hn : before.length using Nat.strongRecOn generalizing line begun before with
  | _ n ih =>
    have hnewline (more : List Char) (hmore : more.length < n) (hplain : endsPlainly (more ++ [c]) = true)
        (lead : List Char) :
        ∃ tail, (linesAux [] false (more ++ c :: after))[more.count '\n']? =
          some (lastLine (line.reverse ++ lead ++ '\n' :: more) ++ c :: tail) := by
      obtain ⟨tail, htail⟩ := ih more.length hmore [] false more (by simp) hplain rfl
      exact ⟨tail, by rw [htail, lastLine_append_newline, List.reverse_nil, List.nil_append]⟩
    cases before with
    | nil =>
      have hother : isLineEnd c = false := by
        rcases endsPlainly_cons hplain with ⟨_, -, hrest, -⟩ | ⟨h, -⟩
        · contradiction
        · exact h.resolve_left hc
      obtain ⟨more, hmore⟩ := linesAux_begun (c :: line) after
      refine ⟨more, ?_⟩
      rw [List.nil_append, linesAux_other _ _ _ hother, List.count_nil, hmore, List.append_nil,
        lastLine_eq_self (by simpa using hline), List.reverse_cons, List.append_assoc, List.singleton_append]
    | cons d before =>
      rw [List.length_cons] at hn
      rcases endsPlainly_cons hplain with ⟨more, rfl, hmore, hplain⟩ | ⟨hd, hplain⟩
      · cases before with
        | nil =>
          obtain ⟨rfl, -⟩ := List.cons.inj hmore
          contradiction
        | cons e before =>
          obtain ⟨rfl, rfl⟩ := List.cons.inj hmore
          obtain ⟨tail, htail⟩ := hnewline before (by simp at hn; omega) hplain ['\r']
          refine ⟨tail, ?_⟩
          rw [List.cons_append, List.cons_append, linesAux_return, List.count_cons_of_ne (by decide),
            List.count_cons_self, List.getElem?_cons_succ, htail, List.append_assoc, List.singleton_append]
      · by_cases hdn : d = '\n'
        · subst hdn
          obtain ⟨tail, htail⟩ := hnewline before (by omega) hplain []
          refine ⟨tail, ?_⟩
          rw [List.cons_append, linesAux_newline, List.count_cons_self, List.getElem?_cons_succ, htail, List.append_nil]
        · obtain ⟨tail, htail⟩ := ih before.length (by omega) (d :: line) true before
            (by simpa using ⟨fun e => hdn e.symm, hline⟩) hplain rfl
          refine ⟨tail, ?_⟩
          rw [List.cons_append, linesAux_other _ _ _ (hd.resolve_left hdn), List.count_cons_of_ne hdn, htail,
            List.reverse_cons, List.append_assoc, List.singleton_append]

end Text

/-- A token other than the last one is what the scanner finds where the token starts. -/
theorem Token.scanAll_scanned (file : Option String) (done : List Char) (depth : Nat) (cs : List Char) :
    ∀ t ∈ scanAll file depth (Location.origin.after done) cs, t.content ≠ .finish → ∃ c rest,
      (done ++ cs).drop t.span.start.offset = c :: rest ∧ t.content = (scan c rest).content := by
  -- on the length of what is left, as for how the tokens cover it
  induction hn : cs.length using Nat.strongRecOn generalizing done depth cs with
  | _ n ih =>
    obtain ⟨gap, left, hg⟩ : ∃ gap left, gapSpan depth false cs = (gap, left) := ⟨_, _, rfl⟩
    have hsplit := gapSpan_split depth false cs
    simp only [hg] at hsplit
    intro t ht hfinish
    cases left with
    | nil =>
      rw [scanAll_of_gap file _ hg, List.mem_singleton] at ht
      simp [ht] at hfinish
    | cons c rest =>
      have hscan := scan_split c rest
      have hshort := scan_rest_length c rest
      have hstart : (Location.origin.after done).after gap = Location.origin.after (done ++ gap) :=
        (Location.after_append _ _ _).symm
      have hmore : gap.length + (c :: rest).length = n := by rw [← hn, ← hsplit, List.length_append]
      rw [scanAll_of_token file _ hg, hstart, ← Location.after_append] at ht
      rcases List.mem_cons.1 ht with rfl | ht
      · refine ⟨c, rest, ?_, rfl⟩
        rw [Location.origin_after_offset, ← hsplit, ← List.append_assoc, List.drop_left]
      · obtain ⟨c', rest', hdrop, hcontent⟩ := ih (scan c rest).rest.length (by omega) _ _ _ rfl t ht hfinish
        refine ⟨c', rest', ?_, hcontent⟩
        rw [← hdrop, ← hsplit, ← hscan]
        simp only [List.append_assoc]

theorem tokenize_first {source : String} {file : Option String} {t : Token} (ht : t ∈ tokenize source file)
    (hnewline : t.content ≠ .newline) (hfinish : t.content ≠ .finish) :
    ∃ c rest, source.toList.drop t.span.start.offset = c :: rest ∧ c ≠ '\n' := by
  obtain ⟨c, rest, hdrop, hcontent⟩ := Token.scanAll_scanned file [] 0 source.toList t ht hfinish
  refine ⟨c, rest, hdrop, ?_⟩
  rintro rfl
  exact hnewline (by rw [hcontent, Token.scan, if_pos rfl])

theorem sourceLines_getElem? (source : String) (n : Nat) :
    (sourceLines (some source))[n]? = ((Text.linesAux [] false source.toList)[n]?).map String.ofList := by
  unfold sourceLines Text.lines
  rw [List.getElem?_toArray, List.getElem?_map]
  rfl

theorem parse_lines_eq {source : String} {file : Option String} {p : Program} (h : parse source file = .ok p) :
    p.lines = sourceLines (some source) := by
  have hprogram (lines : Array String) : Parse.Yields (Parse.program lines) (·.lines = lines) :=
    Parse.yields_then fun _ => Parse.yields_then fun _ => Parse.yields_then fun _ => Parse.yields_then fun _ =>
      Parse.yields_pure rfl
  unfold parse parseTokens at h
  dsimp only at h
  split at h
  · rename_i c hrun
    cases h
    exact hprogram _ _ _ _ hrun
  · cases h

namespace Diagnostic

/-- The excerpt shows `c`, and its first caret stands under it. -/
def PointsAt (d : Diagnostic) (c : Char) : Prop :=
  ∃ quoted marks i, d.excerpt = ["  |", quoted, marks] ∧ quoted.toList[i]? = some c ∧
    marks.toList.findIdx? (· = '^') = some i

theorem padStart_length (width : Nat) (s : String) : (padStart width s).length = max width s.length := by
  unfold padStart
  simp
  omega

theorem carets_eq (span : Span) (line : String) :
    ∃ more, (carets span line).toList = List.replicate (span.start.column - 1) ' ' ++ '^' :: more := by
  have hsome (stop : Nat) : max 1 (stop - span.start.column) = max 1 (stop - span.start.column) - 1 + 1 := by omega
  unfold carets
  dsimp only
  rw [String.toList_ofList, hsome, List.replicate_succ]
  exact ⟨_, rfl⟩

theorem pointsAt_of_line {d : Diagnostic} {span : Span} {line : String} {c : Char} (hspan : d.span = some span)
    (hline : d.sourceLine = some line) (hc : line.toList[span.start.column - 1]? = some c)
    (hnumber : span.start.line < 1000) : d.PointsAt c := by
  have hwidth : (padStart 3 (toString span.start.line)).toList.length = 3 := by
    have hdigits : (toString span.start.line).length ≤ 3 := Nat.repr_length _ 3 (by decide) hnumber
    rw [String.length_toList, padStart_length]
    omega
  refine ⟨padStart 3 (toString span.start.line) ++ " | " ++ line, "    | " ++ carets span line,
    6 + (span.start.column - 1), ?_, ?_, ?_⟩
  · unfold excerpt
    rw [hspan, hline]
  · have hlead : (padStart 3 (toString span.start.line) ++ " | ").toList.length = 6 := by
      rw [String.toList_append, List.length_append, hwidth]
      rfl
    rw [String.toList_append, List.getElem?_append_right (by omega), hlead, Nat.add_sub_cancel_left, hc]
  · obtain ⟨more, hmore⟩ := carets_eq span line
    have hmarks : ("    | " ++ carets span line).toList =
        List.replicate 4 ' ' ++ '|' :: ' ' :: (List.replicate (span.start.column - 1) ' ' ++ '^' :: more) := by
      rw [String.toList_append, hmore]
      rfl
    rw [hmarks]
    simp [List.findIdx?_append, List.findIdx?_cons, List.findIdx?_replicate]
    omega

end Diagnostic

/-- Where lines end in `\n` and `\r\n` only, up to a token that is no line end, the line with the token's number exists
and has the token's first character at the token's column. It is the line that a syntax error at the token and the
parsed script give, and the carets begin under that character unless the number has more than three digits. -/
theorem quotes_line {source : String} {file : Option String} {t : Token} (ht : t ∈ tokenize source file)
    (hnewline : t.content ≠ .newline) (hfinish : t.content ≠ .finish)
    (hplain : Text.endsPlainly (source.toList.take (t.span.start.offset + 1)) = true) :
    ∃ line c, source.toList[t.span.start.offset]? = some c ∧ line.toList[t.span.start.column - 1]? = some c ∧
      (∀ cause, (SyntaxTrouble.toError ⟨cause, t.span⟩ (sourceLines (some source))).sourceLine = some line) ∧
      (∀ p, parse source file = .ok p → p.line? t.span.start.line = some line) ∧
      ∀ d : Diagnostic, d.span = some t.span → d.sourceLine = some line → t.span.start.line < 1000 → d.PointsAt c := by
  obtain ⟨c, after, hdrop, hc⟩ := tokenize_first ht hnewline hfinish
  obtain ⟨-, hline, hcolumn⟩ := (tokenize_placed source file ht).1
  obtain ⟨before, hbefore⟩ : ∃ before, source.toList.take t.span.start.offset = before := ⟨_, rfl⟩
  have hchar : source.toList[t.span.start.offset]? = some c := by
    rw [← Nat.add_zero t.span.start.offset, ← List.getElem?_drop, hdrop]
    rfl
  have hsource : source.toList = before ++ c :: after := by rw [← hbefore, ← hdrop, List.take_append_drop]
  rw [List.take_add_one, hchar, hbefore] at hplain
  rw [hbefore] at hline hcolumn
  obtain ⟨more, hmore⟩ := Text.linesAux_at [] false before c after (by simp) hplain hc
  rw [← hsource, List.reverse_nil, List.nil_append] at hmore
  have hquoted : (sourceLines (some source))[t.span.start.line - 1]? =
      some (String.ofList (Text.lastLine before ++ c :: more)) := by
    rw [sourceLines_getElem?, hline, Nat.add_sub_cancel_left, hmore]
    rfl
  have hat : (String.ofList (Text.lastLine before ++ c :: more)).toList[t.span.start.column - 1]? = some c := by
    have hlength : (Text.lastLine before).length = t.span.start.column - 1 := by
      rw [hcolumn, Nat.add_sub_cancel_left, Text.lastLine, List.length_reverse]
    rw [String.toList_ofList, ← hlength, List.getElem?_append_right (Nat.le_refl _), Nat.sub_self]
    rfl
  refine ⟨_, c, hchar, hat, fun _ => hquoted, fun p hp => ?_, fun d hspan hsourceLine hnumber => ?_⟩
  · rw [Program.line?, parse_lines_eq hp, if_neg (by omega), hquoted]
  · exact Diagnostic.pointsAt_of_line hspan hsourceLine hat hnumber

def twoLineSource : String := "print a\r\n  print ($x)"

theorem quotes_line_second : ∃ t ∈ tokenize twoLineSource none, t.content = .symbol .leftParen ∧
    t.span.start = ⟨2, 9, 17⟩ ∧
    ∃ line c, twoLineSource.toList[17]? = some c ∧ line.toList[8]? = some c ∧
      (∀ cause, (SyntaxTrouble.toError ⟨cause, t.span⟩ (sourceLines (some twoLineSource))).sourceLine = some line) ∧
      (∀ p, parse twoLineSource none = .ok p → p.line? 2 = some line) ∧
      ∀ d : Diagnostic, d.span = some t.span → d.sourceLine = some line → d.PointsAt c := by
  have hfound : ((tokenize twoLineSource none).any fun t =>
      t.hasSymbol .leftParen && t.span.start = ⟨2, 9, 17⟩) = true := by decide +kernel
  obtain ⟨t, ht, hfound⟩ := List.any_eq_true.1 hfound
  obtain ⟨hsymbol, hstart⟩ := Bool.and_eq_true_iff.1 hfound
  have hcontent : t.content = .symbol .leftParen := (Parse.hasSymbol_iff _ _).1 hsymbol
  have hstart : t.span.start = ⟨2, 9, 17⟩ := by simpa using hstart
  have hplain : Text.endsPlainly (twoLineSource.toList.take (t.span.start.offset + 1)) = true := by
    rw [hstart]
    decide +kernel
  obtain ⟨line, c, hchar, hat, herror, hprogram, hpoints⟩ :=
    quotes_line ht (by simp [hcontent]) (by simp [hcontent]) hplain
  rw [hstart] at hchar hat hprogram hpoints
  exact ⟨t, ht, hcontent, hstart, line, c, hchar, hat, herror, hprogram, fun d hd hl => hpoints d hd hl (by decide)⟩

def separatedSource : String := "set $s = 'a\u2028b' + )"

/-- The line that is quoted for the parenthesis ends before it. -/
theorem separated_line_is_cut : ∃ t ∈ tokenize separatedSource none, t.content = .symbol .rightParen ∧
    t.span.start = ⟨1, 18, 17⟩ ∧ separatedSource.toList[17]? = some ')' ∧
    ∀ cause, (SyntaxTrouble.toError ⟨cause, t.span⟩ (sourceLines (some separatedSource))).sourceLine =
      some "set $s = 'a" := by
  have hfound : ((tokenize separatedSource none).any fun t =>
      t.hasSymbol .rightParen && t.span.start = ⟨1, 18, 17⟩) = true := by decide +kernel
  have hlines : sourceLines (some separatedSource) = #["set $s = 'a", "b' + )"] := by decide +kernel
  obtain ⟨t, ht, hfound⟩ := List.any_eq_true.1 hfound
  obtain ⟨hcontent, hstart⟩ := Bool.and_eq_true_iff.1 hfound
  have hstart : t.span.start = ⟨1, 18, 17⟩ := by simpa using hstart
  refine ⟨t, ht, (Parse.hasSymbol_iff _ _).1 hcontent, hstart, by decide +kernel, fun cause => ?_⟩
  rw [SyntaxTrouble.toError, hlines, hstart]
  rfl

end DeskScript
