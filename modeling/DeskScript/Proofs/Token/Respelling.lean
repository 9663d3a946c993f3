import DeskScript.Proofs.Token.Parting

set_option autoImplicit false

/-!
# Tokens written out again

Reading does not depend on how far tokens stand apart. When the tokens of a text without faults are written one after
another with a blank between each two, the new text has the same tokens. Main statement: `tokenize_respelled`.
-/

namespace DeskScript

namespace Token

def spelling (t : Token) : String :=
  match t.content with
  | .newline => "\n"
  | _ => t.lexeme

def respelled (ts : List Token) : String := " ".intercalate (ts.map spelling)

def face (t : Token) : Content × String := (t.content, t.lexeme)

theorem respelled_cons (t : Token) {ts : List Token} (h : ts ≠ []) :
    (respelled (t :: ts)).toList = t.spelling.toList ++ ' ' :: (respelled ts).toList := by
  cases ts with
  | nil => contradiction
  | cons u ts => simp [respelled, String.intercalate_cons_cons]

theorem isFault_eq_false_iff (t : Token) : t.isFault = false ↔ ∀ f, t.content ≠ .fault f := by
  unfold isFault
  split <;> simp_all

theorem scanAll_ne_nil (file : Option String) (depth : Nat) (here : Location) (cs : List Char) :
    scanAll file depth here cs ≠ [] := by
  rw [scanAll]
  split <;> simp

theorem scanQuoted_ne_newline (quote : Char) (pieces : List Piece) (chars taken cs : List Char) :
    (scanQuoted quote pieces chars taken cs).content ≠ .newline := by
  fun_induction scanQuoted quote pieces chars taken cs with
  | case1 | case3 | case4 => simp
  | case2 =>
    unfold textContent
    split <;> simp
  | case5 _ _ _ _ _ _ _ ih | case6 _ _ _ _ _ _ _ _ _ _ ih | case7 _ _ _ _ _ _ _ _ _ ih => exact ih

theorem scanSymbol_ne_newline (c : Char) (rest : List Char) : (scanSymbol c rest).content ≠ .newline := by
  have single : singleContent c ≠ .newline := by
    unfold singleContent
    split <;> simp
  unfold scanSymbol
  split
  · exact single
  · split
    · rename_i content h
      unfold pairContent? at h
      grind
    · exact single

theorem scan_newline {c : Char} {rest : List Char} (h : (scan c rest).content = .newline) :
    c = '\n' ∧ (scan c rest).taken = ['\n'] := by
  obtain ⟨rfl, hscan⟩ | hscan | hscan | ⟨-, hscan⟩ | hscan | hscan := scan_cases c
  · exact ⟨rfl, by rw [hscan]⟩
  · exact absurd (hscan rest ▸ h) (scanQuoted_ne_newline _ _ _ _ _)
  · simp [hscan] at h
  · rw [hscan, scanVariable] at h
    split at h <;> simp at h
  · simp only [hscan, wordContent] at h
    split at h <;> simp at h
  · exact absurd (hscan rest ▸ h) (scanSymbol_ne_newline c rest)

theorem spelling_scan (c : Char) (rest : List Char) (span : Span) :
    (spelling ⟨(scan c rest).content, lexemeOf (scan c rest).content (scan c rest).taken, span⟩).toList =
      (scan c rest).taken := by
  by_cases hn : (scan c rest).content = .newline
  · rw [(scan_newline hn).2, hn]
    simp [spelling]
  · unfold spelling
    split
    · contradiction
    · rw [lexemeOf_eq _ hn, String.toList_ofList]

/-- A gap ends before a character that no gap goes on with. -/
theorem gapSpan_stop {depth : Nat} {inComment : Bool} {cs gap rest : List Char} {c : Char}
    (h : gapSpan depth inComment cs = (gap, c :: rest)) : isGapChar c = false ∨ c = '\n' ∧ depth = 0 := by
  induction cs generalizing inComment gap with
  | nil => simp [gapSpan] at h
  | cons d cs ih =>
    by_cases hn : d = '\n'
    · by_cases hd : 0 < depth
      · simp only [gapSpan, hn, if_true, hd, Prod.mk.injEq] at h
        exact ih (Prod.ext rfl h.2)
      · simp only [gapSpan, hn, if_true, hd, if_false, Prod.mk.injEq, List.cons.injEq] at h
        exact .inr ⟨h.2.1.symm, by omega⟩
    · by_cases hb : (inComment || d = ' ' || d = '\t' || d = '\r') = true
      · simp only [gapSpan, hn, if_false, hb, if_true, Prod.mk.injEq] at h
        exact ih (Prod.ext rfl h.2)
      · by_cases hh : d = '#'
        · simp only [gapSpan, hn, if_false, hb] at h
          simp only [hh, if_true, Bool.false_eq_true, if_false, Prod.mk.injEq] at h
          exact ih (Prod.ext rfl h.2)
        · simp only [gapSpan, hn, if_false, hb, hh, Bool.false_eq_true, Prod.mk.injEq, List.cons.injEq] at h
          obtain ⟨-, rfl, -⟩ := h
          simp only [Bool.or_eq_true, not_or, decide_eq_true_eq] at hb
          exact .inl (by simp [isGapChar, hn, hb, hh])

theorem gapSpan_again {depth : Nat} {c : Char} (h : isGapChar c = false ∨ c = '\n' ∧ depth = 0) (rest : List Char) :
    gapSpan depth false (c :: rest) = ([], c :: rest) ∧ gapSpan depth false (' ' :: c :: rest) = ([' '], c :: rest) := by
  rcases h with h | ⟨rfl, rfl⟩
  · exact ⟨gapSpan_of_not_gapChar depth rest h, gapSpan_blank depth rest h⟩
  · simp [gapSpan]

theorem scanAll_faces (file : Option String) {depth : Nat} (here : Location) {cs gap rest taken left : List Char}
    {c : Char} {content : Content} (hgap : gapSpan depth false cs = (gap, c :: rest))
    (hscan : scan c rest = ⟨content, taken, left⟩) :
    (scanAll file depth here cs).map face =
      (content, lexemeOf content taken) ::
        (scanAll file (depthAfter depth content) ((here.after gap).after taken) left).map face := by
  rw [scanAll_of_token file here hgap, hscan]
  rfl

/-- The tokens of a text, written out behind a blank or behind nothing, are read again. -/
theorem scanAll_respelled (file file' : Option String) (depth : Nat) (here here' : Location) (cs : List Char)
    (hfault : ∀ t ∈ scanAll file depth here cs, t.isFault = false) :
    (scanAll file' depth here' (respelled (scanAll file depth here cs)).toList).map face =
        (scanAll file depth here cs).map face ∧
      (scanAll file' depth here' (' ' :: (respelled (scanAll file depth here cs)).toList)).map face =
        (scanAll file depth here cs).map face := by
  -- on the length of what is left: a token takes at least one character
  induction hn : cs.length using Nat.strongRecOn generalizing depth here here' cs with
  | _ n ih =>
    obtain ⟨gap, left, hg⟩ : ∃ gap left, gapSpan depth false cs = (gap, left) := ⟨_, _, rfl⟩
    cases left with
    | nil =>
      rw [scanAll_of_gap file here hg]
      have hnothing : gapSpan depth false [] = ([], []) := rfl
      have hblank : gapSpan depth false [' '] = ([' '], []) := rfl
      constructor
      · rw [show (respelled _).toList = [] from rfl, scanAll_of_gap file' here' hnothing]
        rfl
      · rw [show (respelled _).toList = [] from rfl, scanAll_of_gap file' here' hblank]
        rfl
    | cons c rest =>
      have hsplit := gapSpan_split depth false cs
      have hshort := scan_rest_length c rest
      have hlength : gap.length + (c :: rest).length = n := by rw [← hn, ← hsplit, hg, List.length_append]
      have hstop := gapSpan_stop hg
      rw [scanAll_of_token file here hg] at hfault ⊢
      have hcontent := (isFault_eq_false_iff _).1 (hfault _ List.mem_cons_self)
      obtain ⟨c', taken, htaken⟩ := List.exists_cons_of_length_pos (scan_taken c rest)
      obtain rfl : c' = c := by
        have h := scan_split c rest
        rw [htaken, List.cons_append] at h
        exact (List.cons.inj h).1
      have hscan (more : List Char) : scan c' (taken ++ ' ' :: more) =
          ⟨(scan c' rest).content, c' :: taken, ' ' :: more⟩ := by
        have halone := scan_alone hcontent htaken
        rw [scan_append (by decide) (by rw [halone]; exact hcontent), halone]
        rfl
      have hagain (here' : Location) := (ih (scan c' rest).rest.length (by omega) (depthAfter depth (scan c' rest).content)
        ((here.after gap).after (scan c' rest).taken) here' (scan c' rest).rest
        (fun t ht => hfault t (List.mem_cons_of_mem _ ht)) rfl).2
      have hgaps := fun more => gapSpan_again (gapSpan_stop hg) (taken ++ ' ' :: more)
      rw [htaken] at hagain
      rw [respelled_cons _ (scanAll_ne_nil _ _ _ _), spelling_scan, htaken, List.cons_append]
      generalize (scan c' rest).content = content at hscan hagain ⊢
      constructor
      · rw [scanAll_faces file' here' (hgaps _).1 (hscan _), hagain]
        rfl
      · rw [scanAll_faces file' here' (hgaps _).2 (hscan _), hagain]
        rfl

end Token

/-- The tokens of a text without faults, written out with a blank between each two, are read again. -/
theorem tokenize_respelled (source : String) (file file' : Option String)
    (h : ∀ t ∈ tokenize source file, t.isFault = false) :
    (tokenize (Token.respelled (tokenize source file)) file').map Token.face = (tokenize source file).map Token.face :=
  (Token.scanAll_respelled file file' 0 Location.origin Location.origin source.toList h).1

def scatteredSource : String := "print 1.e # x\n(\n'a\\\n#'!=2e-\n)"

theorem tokenize_respelled_scattered :
    (∀ t ∈ tokenize scatteredSource none, t.isFault = false) ∧
    Token.respelled (tokenize scatteredSource none) = "print 1 . e \n ( 'a\\\n#' != 2 e - ) " ∧
    (tokenize (Token.respelled (tokenize scatteredSource none)) none).map Token.face =
      (tokenize scatteredSource none).map Token.face :=
  ⟨by decide +kernel, by decide +kernel, tokenize_respelled scatteredSource none none (by decide +kernel)⟩

end DeskScript
