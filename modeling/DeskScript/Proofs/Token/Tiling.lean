import DeskScript.Proofs.Token.Scan

set_option autoImplicit false

/-!
# How tokens cover a source

The tokens of a text lie on it in order and without overlap, and between them stand only blanks, comments and line ends
inside brackets. Every place that a token records counts the lines and columns of the text before it. Main statement:
`tokenize_tiles`.
-/

namespace DeskScript

def Text.between (source : List Char) (i j : Nat) : List Char := (source.drop i).take (j - i)

theorem Text.between_append (xs ys zs : List Char) :
    Text.between (xs ++ ys ++ zs) xs.length (xs ++ ys).length = ys := by
  simp [Text.between, List.append_assoc]

theorem Text.between_length (source : List Char) (i : Nat) : Text.between source i source.length = source.drop i := by
  rw [Text.between, List.take_of_length_le]
  simp

namespace Location

/-- A location that tells its place in a text: the line ends before it, and its distance from the last of them. -/
structure PlacedIn (l : Location) (source : List Char) : Prop where
  inside : l.offset ≤ source.length
  line : l.line = 1 + (source.take l.offset).count '\n'
  column : l.column = 1 + ((source.take l.offset).reverse.takeWhile (· ≠ '\n')).length

theorem origin_after_offset (cs : List Char) : (origin.after cs).offset = cs.length := by
  rw [after_offset]
  exact Nat.zero_add _

theorem after_concat (l : Location) (cs : List Char) (c : Char) : l.after (cs ++ [c]) = (l.after cs).next c := by
  rw [after_append]
  rfl

theorem origin_after_counts (cs : List Char) :
    (origin.after cs).line = 1 + cs.count '\n' ∧
      (origin.after cs).column = 1 + (cs.reverse.takeWhile (· ≠ '\n')).length := by
  -- on the text read so far, one character at its end at a time, since that is where the location moves
  obtain ⟨rs, rfl⟩ : ∃ rs : List Char, cs = rs.reverse := ⟨cs.reverse, by simp⟩
  induction rs with
  | nil => exact ⟨rfl, rfl⟩
  | cons c rs ih =>
    obtain ⟨hline, hcolumn⟩ := ih
    rw [List.reverse_cons, after_concat]
    unfold next
    by_cases h : c = '\n'
    · simp [h, hline, Nat.add_assoc]
    · simp [h, hline, hcolumn, Nat.add_comm]

theorem origin_after_placedIn (cs rest : List Char) : (origin.after cs).PlacedIn (cs ++ rest) := by
  have ho := origin_after_offset cs
  have hc := origin_after_counts cs
  refine ⟨?_, ?_, ?_⟩
  · rw [ho, List.length_append]
    omega
  · rw [ho, List.take_left]
    exact hc.1
  · rw [ho, List.take_left]
    exact hc.2

end Location

def Content.bracketChange : Content → Int
  | .symbol .leftParen | .symbol .leftBracket => 1
  | .symbol .rightParen | .symbol .rightBracket => -1
  | _ => 0

namespace Token

/-- The brackets open behind some tokens, where `depth` were open before them; a surplus closing one counts for nothing. -/
def openBrackets (depth : Int) (ts : List Token) : Int :=
  ts.foldl (fun n t => max 0 (n + t.content.bracketChange)) depth

def stopAfter (i : Nat) (ts : List Token) : Nat := ts.foldl (fun _ t => t.span.stop.offset) i

theorem depthAfter_eq (depth : Nat) (content : Content) :
    (depthAfter depth content : Int) = max 0 ((depth : Int) + content.bracketChange) := by
  cases content with
  | symbol s => cases s <;> simp only [depthAfter, Content.bracketChange] <;> omega
  | _ =>
    simp only [depthAfter, Content.bracketChange]
    omega

/-- What may stand in front of `rest` before a token, with `depth` brackets open: blanks, comments up to the end of their
line, and line ends if a bracket is open. -/
inductive Gap (depth : Int) : List Char → List Char → Prop where
  | nil (rest : List Char) : Gap depth [] rest
  | blank {c : Char} {gap rest : List Char} (hc : c = ' ' ∨ c = '\t' ∨ c = '\r') (h : Gap depth gap rest) :
      Gap depth (c :: gap) rest
  | comment {body gap rest : List Char} (hbody : '\n' ∉ body)
      (hend : gap ++ rest = [] ∨ ∃ tail, gap ++ rest = '\n' :: tail) (h : Gap depth gap rest) :
      Gap depth ('#' :: body ++ gap) rest
  | newline {gap rest : List Char} (hdepth : 0 < depth) (h : Gap depth gap rest) : Gap depth ('\n' :: gap) rest

def Comment (depth : Int) (gap rest : List Char) : Prop :=
  ∃ body more, gap = body ++ more ∧ '\n' ∉ body ∧ (more ++ rest = [] ∨ ∃ tail, more ++ rest = '\n' :: tail) ∧
    Gap depth more rest

theorem Comment.toGap {depth : Int} {gap rest : List Char} (h : Comment depth gap rest) :
    Gap depth ('#' :: gap) rest := by
  obtain ⟨body, more, rfl, hbody, hend, hmore⟩ := h
  exact .comment hbody hend hmore

theorem Comment.cons {depth : Int} {c : Char} {gap rest : List Char} (hc : c ≠ '\n') (h : Comment depth gap rest) :
    Comment depth (c :: gap) rest := by
  obtain ⟨body, more, rfl, hbody, hend, hmore⟩ := h
  refine ⟨c :: body, more, rfl, ?_, hend, hmore⟩
  simp only [List.mem_cons, not_or]
  exact ⟨fun e => hc e.symm, hbody⟩

theorem gapSpan_gap (depth : Nat) (cs : List Char) :
    Gap depth (gapSpan depth false cs).1 (gapSpan depth false cs).2 ∧
      Comment depth (gapSpan depth true cs).1 (gapSpan depth true cs).2 := by
  -- Both at once: a comment begins within a gap, and with brackets open the gap goes on behind the comment.
  induction cs with
  | nil => exact ⟨.nil [], [], [], rfl, by simp, Or.inl rfl, .nil []⟩
  | cons c rest ih =>
    obtain ⟨plain, comment⟩ := ih
    by_cases hn : c = '\n'
    · subst hn
      by_cases hd : 0 < depth
      · have hopen : (0 : Int) < depth := by omega
        constructor
        · simpa [gapSpan, hd] using Gap.newline hopen plain
        · refine ⟨[], (gapSpan depth true ('\n' :: rest)).1, rfl, by simp, Or.inr ⟨rest, ?_⟩, ?_⟩
          · exact gapSpan_split depth true ('\n' :: rest)
          · simpa [gapSpan, hd] using Gap.newline hopen plain
      · constructor
        · simpa [gapSpan, hd] using @Gap.nil depth ('\n' :: rest)
        · refine ⟨[], [], ?_, by simp, Or.inr ⟨rest, ?_⟩, .nil _⟩ <;> simp [gapSpan, hd]
    · constructor
      · by_cases hb : c = ' ' ∨ c = '\t' ∨ c = '\r'
        · have hb' : ((c = ' ' ∨ c = '\t') ∨ c = '\r') := by simpa [or_assoc] using hb
          simpa [gapSpan, hn, hb'] using Gap.blank hb plain
        · have hb' : ¬ ((c = ' ' ∨ c = '\t') ∨ c = '\r') := by simpa [or_assoc] using hb
          by_cases hh : c = '#'
          · simpa [gapSpan, hn, hb', hh] using comment.toGap
          · simpa [gapSpan, hn, hb', hh] using @Gap.nil depth (c :: rest)
      · simpa [gapSpan, hn] using comment.cons hn

/-- How tokens cover a source from offset `i` on, where `depth` brackets are open. -/
structure TilesFrom (source : List Char) (i : Nat) (depth : Int) (tokens : List Token) : Prop where
  ends : ∃ body last, tokens = body ++ [last] ∧ last.isFinish = true ∧ last.span.start.offset = source.length ∧
    last.span.stop.offset = source.length ∧ ∀ t ∈ body, t.isFinish = false
  after : ∀ t ∈ tokens, i ≤ t.span.start.offset
  ordered : tokens.Pairwise fun s t => s.span.stop.offset ≤ t.span.start.offset
  covers : ∀ t ∈ tokens, t.isFinish = false → t.span.start.offset < t.span.stop.offset
  spelled : ∀ t ∈ tokens, t.isFinish = false → t.content ≠ .newline →
    t.lexeme = String.ofList (Text.between source t.span.start.offset t.span.stop.offset)
  gaps : ∀ before t rest, tokens = before ++ t :: rest →
    Gap (openBrackets depth before) (Text.between source (stopAfter i before) t.span.start.offset)
      (source.drop t.span.start.offset)
  placed : ∀ t ∈ tokens, t.span.start.PlacedIn source ∧ t.span.stop.PlacedIn source

/-- The last token alone, behind a gap that reaches to the end. -/
theorem TilesFrom.finish {source : List Char} {i : Nat} {depth : Int} {t : Token} (hfinish : t.isFinish = true)
    (hstart : t.span.start.offset = source.length) (hstop : t.span.stop.offset = source.length)
    (hi : i ≤ source.length) (hgap : Gap depth (source.drop i) [])
    (hplaced : t.span.start.PlacedIn source ∧ t.span.stop.PlacedIn source) : TilesFrom source i depth [t] := by
  refine ⟨⟨[], t, rfl, hfinish, hstart, hstop, by simp⟩, ?_, ?_, ?_, ?_, ?_, ?_⟩
  · simpa [hstart] using hi
  · simp
  · simp [hfinish]
  · simp [hfinish]
  · intro before u rest h
    obtain ⟨rfl, rfl, rfl⟩ : before = [] ∧ u = t ∧ rest = [] := by
      cases before with
      | nil => simpa [eq_comm] using h
      | cons b before => simp at h
    rw [hstart, List.drop_length]
    simpa [openBrackets, stopAfter, Text.between_length] using hgap
  · simpa using hplaced

/-- One more token in front, behind a gap that begins at `i`. -/
theorem TilesFrom.cons {source : List Char} {i : Nat} {depth : Int} {t : Token} {ts : List Token}
    (hfinish : t.isFinish = false) (hi : i ≤ t.span.start.offset)
    (hcovers : t.span.start.offset < t.span.stop.offset)
    (hspelled : t.content ≠ .newline →
      t.lexeme = String.ofList (Text.between source t.span.start.offset t.span.stop.offset))
    (hgap : Gap depth (Text.between source i t.span.start.offset) (source.drop t.span.start.offset))
    (hplaced : t.span.start.PlacedIn source ∧ t.span.stop.PlacedIn source)
    (h : TilesFrom source t.span.stop.offset (max 0 (depth + t.content.bracketChange)) ts) :
    TilesFrom source i depth (t :: ts) := by
  refine ⟨?_, ?_, ?_, ?_, ?_, ?_, ?_⟩
  · obtain ⟨body, last, rfl, hlast, hstart, hstop, hbody⟩ := h.ends
    exact ⟨t :: body, last, rfl, hlast, hstart, hstop, by simpa [hfinish] using hbody⟩
  · intro u hu
    rcases List.mem_cons.1 hu with rfl | hu
    · exact hi
    · have := h.after u hu
      omega
  · exact List.pairwise_cons.2 ⟨h.after, h.ordered⟩
  · intro u hu hf
    rcases List.mem_cons.1 hu with rfl | hu
    · exact hcovers
    · exact h.covers u hu hf
  · intro u hu hf hn
    rcases List.mem_cons.1 hu with rfl | hu
    · exact hspelled hn
    · exact h.spelled u hu hf hn
  · intro before u rest hsplit
    cases before with
    | nil =>
      obtain ⟨rfl, rfl⟩ : t = u ∧ ts = rest := by simpa using hsplit
      exact hgap
    | cons b before =>
      obtain ⟨rfl, rfl⟩ : t = b ∧ ts = before ++ u :: rest := by simpa using hsplit
      exact h.gaps before u rest rfl
  · intro u hu
    rcases List.mem_cons.1 hu with rfl | hu
    · exact hplaced
    · exact h.placed u hu

theorem scanAll_tilesFrom (file : Option String) (done : List Char) (depth : Nat) (cs : List Char) :
    TilesFrom (done ++ cs) done.length depth (scanAll file depth (Location.origin.after done) cs) := by
  -- on the length of what is left: a token takes at least one character
  induction hn : cs.length using Nat.strongRecOn generalizing done depth cs with
  | _ n ih =>
    obtain ⟨gap, left, hg⟩ : ∃ gap left, gapSpan depth false cs = (gap, left) := ⟨_, _, rfl⟩
    have hgap := (gapSpan_gap depth cs).1
    have hsplit := gapSpan_split depth false cs
    simp only [hg] at hgap hsplit
    have hstart : (Location.origin.after done).after gap = Location.origin.after (done ++ gap) :=
      (Location.after_append _ _ _).symm
    have hoffset := Location.origin_after_offset (done ++ gap)
    have hi : done.length ≤ (done ++ gap).length := by
      rw [List.length_append]
      omega
    cases left with
    | nil =>
      have hsource : done ++ cs = done ++ gap := by rw [← hsplit, List.append_nil]
      have hplaced := Location.origin_after_placedIn (done ++ gap) []
      rw [List.append_nil] at hplaced
      rw [scanAll_of_gap file _ hg, hstart, hsource]
      apply TilesFrom.finish rfl hoffset hoffset hi
      · rw [List.drop_left]
        exact hgap
      · exact ⟨hplaced, hplaced⟩
    | cons c rest =>
      have hscan := scan_split c rest
      have htaken := scan_taken c rest
      have hshort := scan_rest_length c rest
      have hcontent := scan_ne_finish c rest
      rw [scanAll_of_token file _ hg, hstart, ← Location.after_append]
      generalize scan c rest = found at hscan htaken hshort hcontent ⊢
      have hsource : done ++ cs = done ++ gap ++ found.taken ++ found.rest := by
        simp only [← hsplit, ← hscan, List.append_assoc]
      have hstop := Location.origin_after_offset (done ++ gap ++ found.taken)
      have hmore : gap.length + (c :: rest).length = n := by rw [← hn, ← hsplit, List.length_append]
      have hnext := ih found.rest.length (by omega) (done ++ gap ++ found.taken) (depthAfter depth found.content)
        found.rest rfl
      rw [depthAfter_eq, ← hstop] at hnext
      rw [hsource]
      apply TilesFrom.cons (isFinish_eq_false hcontent)
      · rw [hoffset]
        exact hi
      · simp only [hoffset, hstop, List.length_append]
        omega
      · intro hnewline
        simp only [lexemeOf_eq _ hnewline, hoffset, hstop]
        rw [Text.between_append]
      · simp only [hoffset]
        rw [List.append_assoc (done ++ gap), Text.between_append, List.drop_left, hscan]
        exact hgap
      · refine ⟨?_, Location.origin_after_placedIn _ _⟩
        rw [List.append_assoc (done ++ gap)]
        exact Location.origin_after_placedIn _ _
      · exact hnext

end Token

section

variable (source : String) (file : Option String)

/-- The tokens of a source end in one `finish` token, behind its last character. -/
theorem tokenize_ends : ∃ body last, tokenize source file = body ++ [last] ∧ last.isFinish = true ∧
    last.span.start.offset = source.toList.length ∧ last.span.stop.offset = source.toList.length ∧
    ∀ t ∈ body, t.isFinish = false :=
  (Token.scanAll_tilesFrom file [] 0 source.toList).ends

theorem tokenize_placed {t : Token} (ht : t ∈ tokenize source file) :
    t.span.start.PlacedIn source.toList ∧ t.span.stop.PlacedIn source.toList :=
  (Token.scanAll_tilesFrom file [] 0 source.toList).placed t ht

end

/-- The tokens of a source lie on it in order, with nothing but gaps between them, and end in one `finish` token. -/
theorem tokenize_tiles (source : String) (file : Option String) :
    Token.TilesFrom source.toList 0 0 (tokenize source file) :=
  Token.scanAll_tilesFrom file [] 0 source.toList

end DeskScript
