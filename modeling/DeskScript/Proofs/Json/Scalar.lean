import DeskScript.Json.Reader
import DeskScript.Proofs.Number.Written
import DeskScript.Value.Tree

set_option autoImplicit false

/-!
# Texts, numbers and words of JSON are read back

A text is read back character by character, each from its escape. A number is read back part by part: each part ends where
the next one begins, and the last where nothing follows that could belong to a number. Main statements: `string_quoted`,
`scalar_spelling`, `spelling_number`.
-/

namespace DeskScript.Json

open DeskScript.Text DeskScript.Number

theorem hex4?_hexDigits : ∀ n < 32, hex4? (hexDigits 4 n) = some n := by decide

theorem unicode_escape (start fuel : Nat) (done : List Char) {n : Nat} (hn : n < 32) {rest : List Char}
    (hrest : rest ≠ []) : stringFrom start (fuel + 1) done ('\\' :: 'u' :: hexDigits 4 n ++ rest) =
      stringFrom start fuel (Char.ofNat n :: done) rest := by
  have hlength := hexDigits_length 4 n
  have hpositive := List.length_pos_iff.2 hrest
  have hlong : ¬ (hexDigits 4 n ++ rest).length ≤ 4 := by
    rw [List.length_append]
    omega
  have htake : (hexDigits 4 n ++ rest).take 4 = hexDigits 4 n := List.take_left' hlength
  have hdrop : (hexDigits 4 n ++ rest).drop 4 = rest := List.drop_left' hlength
  have hlow : isHighSurrogate n = false := by
    unfold isHighSurrogate
    rw [decide_eq_false (by omega), Bool.false_and]
  rw [List.cons_append, List.cons_append, stringFrom, if_neg (by decide), if_pos rfl]
  dsimp only
  rw [if_neg hlong, htake, hex4?_hexDigits n hn]
  dsimp only
  rw [hlow, hdrop, if_neg Bool.false_ne_true]

theorem stringFrom_escaped (start fuel : Nat) (done : List Char) (c : Char) {rest : List Char} (hrest : rest ≠ []) :
    stringFrom start (fuel + 1) done (escaped c ++ rest) = stringFrom start fuel (c :: done) rest := by
  have hcode {n : Nat} (h : c.toNat = n) : Char.ofNat n = c := h ▸ Char.ofNat_toNat c
  unfold escaped
  split
  · rename_i hc
    rw [hc]
    rfl
  split
  · rename_i hc
    rw [hc]
    rfl
  split
  · rename_i hc
    rw [hc]
    rfl
  split
  · rename_i hc
    rw [hc]
    rfl
  split
  · rename_i hc
    rw [hc]
    rfl
  split
  · rename_i hc
    rw [← hcode hc]
    rfl
  split
  · rename_i hc
    rw [← hcode hc]
    rfl
  split
  · rename_i hc
    rw [unicode_escape start fuel done hc hrest, Char.ofNat_toNat]
  · rename_i hquote hbackslash _ _ _ _ _ hc
    rw [List.singleton_append, stringFrom.eq_def]
    dsimp only
    rw [if_neg hquote, if_neg hbackslash, if_neg hc]

theorem stringFrom_flatMap (start : Nat) (cs rest : List Char) (done : List Char) {fuel : Nat}
    (hfuel : cs.length < fuel) : stringFrom start fuel done (cs.flatMap escaped ++ '"' :: rest) =
      .ok (String.ofList (done.reverse ++ cs), rest) := by
  induction cs generalizing fuel done with
  | nil =>
    obtain ⟨fuel, rfl⟩ : ∃ k, fuel = k + 1 := ⟨fuel - 1, by omega⟩
    rw [List.append_nil]
    rfl
  | cons c cs ih =>
    obtain ⟨fuel, rfl⟩ : ∃ k, fuel = k + 1 := ⟨fuel - 1, by omega⟩
    have hlength : cs.length < fuel := Nat.lt_of_succ_lt_succ hfuel
    rw [List.flatMap_cons, List.append_assoc, stringFrom_escaped start fuel done c (by simp), ih _ hlength,
      List.reverse_cons, List.append_assoc, List.singleton_append]

theorem length_escaped (c : Char) : 0 < (escaped c).length := by
  unfold escaped
  repeat' split
  all_goals exact Nat.succ_pos _

theorem length_flatMap_escaped (cs : List Char) : cs.length ≤ (cs.flatMap escaped).length := by
  induction cs with
  | nil => exact Nat.le_refl 0
  | cons c cs ih =>
    have hpositive := length_escaped c
    rw [List.flatMap_cons, List.length_append, List.length_cons]
    omega

theorem toList_quoted (s : String) : (quoted s).toList = '"' :: (s.toList.flatMap escaped ++ ['"']) := by
  rw [quoted, String.toList_ofList, List.cons_append]

theorem string_quoted (s : String) (rest : List Char) : string ((quoted s).toList ++ rest) = .ok (s, rest) := by
  have hlength : s.toList.length < ((quoted s).toList ++ rest).length := by
    have hescaped := length_flatMap_escaped s.toList
    simp only [toList_quoted, List.length_append, List.length_cons]
    omega
  have hread := stringFrom_flatMap ((quoted s).toList ++ rest).length s.toList rest [] hlength
  have htail : ((quoted s).toList ++ rest).tail = s.toList.flatMap escaped ++ '"' :: rest := by
    rw [toList_quoted, List.cons_append, List.tail_cons, List.append_assoc, List.singleton_append]
  rw [List.reverse_nil, List.nil_append, String.ofList_toList] at hread
  rw [string, htail, hread]

def signPart (cs : List Char) : List Char × List Char :=
  match cs with
  | '-' :: rest => (['-'], rest)
  | _ => ([], cs)

def wholePart (cs : List Char) : List Char × List Char :=
  match cs with
  | '0' :: rest => (['0'], rest)
  | _ => takeAscii cs

def fractionPart (cs : List Char) : List Char × List Char :=
  match cs with
  | '.' :: rest =>
    let ds := takeAscii rest
    if ds.1.isEmpty then ([], cs) else ('.' :: ds.1, ds.2)
  | _ => ([], cs)

def exponentPart (cs : List Char) : List Char × List Char :=
  match cs with
  | e :: rest =>
    if e = 'e' || e = 'E' then
      let signed := match rest with
        | s :: more => if s = '+' || s = '-' then ([s], more) else ([], rest)
        | [] => ([], rest)
      let ds := takeAscii signed.2
      if ds.1.isEmpty then ([], cs) else (e :: signed.1 ++ ds.1, ds.2)
    else ([], cs)
  | [] => ([], cs)

theorem numberSpan?_eq (cs : List Char) : numberSpan? cs =
    (let sign := signPart cs
     let whole := wholePart sign.2
     if whole.1.isEmpty then none
     else
      let fraction := fractionPart whole.2
      let exponent := exponentPart fraction.2
      some (sign.1 ++ whole.1 ++ fraction.1 ++ exponent.1, !(fraction.1.isEmpty && exponent.1.isEmpty),
        exponent.2)) := rfl

def inFraction (c : Char) : Bool := isAsciiDigit c || c == '.'

def inNumber (c : Char) : Bool := inFraction c || c == 'e' || c == 'E'

variable {sign whole fraction exponent ds rest : List Char}

theorem breaks_exponent (h : IsExponent exponent) (hrest : Breaks inNumber rest) : Breaks inFraction (exponent ++ rest) := by
  rcases h with rfl | ⟨s, ds, -, -, -, rfl⟩
  · refine hrest.weaken fun c hc => ?_
    rw [inNumber, hc]
    rfl
  · exact breaks_cons (by decide)

theorem breaks_fraction (h : IsFraction fraction) (hrest : Breaks inFraction rest) :
    Breaks isAsciiDigit (fraction ++ rest) := by
  rcases h with rfl | ⟨ds, -, -, rfl⟩
  · refine hrest.weaken fun c hc => ?_
    rw [inFraction, hc, Bool.true_or]
  · exact breaks_cons (by decide)

theorem takeAscii_append (h : AllDigits ds) (hrest : Breaks isAsciiDigit rest) : takeAscii (ds ++ rest) = (ds, rest) := by
  induction ds with
  | nil =>
    cases rest with
    | nil => rfl
    | cons c rest => exact if_neg (Bool.eq_false_iff.1 (hrest c rfl))
  | cons c ds ih =>
    have hrest := ih fun d hd => h d (List.mem_cons_of_mem c hd)
    rw [List.cons_append, takeAscii, hrest]
    exact if_pos (h c List.mem_cons_self)

theorem signPart_append (h : sign = [] ∨ sign = ['-']) (hrest : Breaks (· == '-') rest) :
    signPart (sign ++ rest) = (sign, rest) := by
  rcases h with rfl | rfl
  · rw [List.nil_append]
    unfold signPart
    split
    · exact absurd (hrest '-' rfl) (by decide)
    · rfl
  · rfl

theorem wholePart_append (h : IsWhole whole) (hrest : Breaks isAsciiDigit rest) :
    wholePart (whole ++ rest) = (whole, rest) := by
  rcases h with rfl | ⟨hne, hdigits, hhead⟩
  · rfl
  · obtain ⟨c, cs, rfl⟩ := List.exists_cons_of_ne_nil hne
    have htake := takeAscii_append hdigits hrest
    unfold wholePart
    split
    · rename_i heq
      exact absurd (congrArg some (List.cons.inj heq).1) hhead
    · exact htake

theorem fractionPart_append (h : IsFraction fraction) (hrest : Breaks inFraction rest) :
    fractionPart (fraction ++ rest) = (fraction, rest) := by
  rcases h with rfl | ⟨ds, hne, hdigits, rfl⟩
  · rw [List.nil_append]
    unfold fractionPart
    split
    · exact absurd (hrest '.' rfl) (by decide)
    · rfl
  · have htake := takeAscii_append hdigits (breaks_fraction (.inl rfl) hrest)
    rw [List.nil_append] at htake
    have hsome := List.isEmpty_eq_false_iff.2 hne
    rw [List.cons_append, fractionPart]
    simp only [htake, hsome, Bool.false_eq_true, if_false]

theorem exponentPart_append (h : IsExponent exponent) (hrest : Breaks inNumber rest) :
    exponentPart (exponent ++ rest) = (exponent, rest) := by
  rcases h with rfl | ⟨s, ds, hsign, hne, hdigits, rfl⟩
  · rw [List.nil_append]
    cases rest with
    | nil => rfl
    | cons c rest =>
      refine if_neg fun hc => Bool.eq_false_iff.1 (hrest c rfl) ?_
      rw [inNumber, Bool.or_assoc, Bool.or_eq_true]
      exact .inr (by simpa using hc)
  · have hbreaks := breaks_fraction (.inl rfl) (breaks_exponent (.inl rfl) hrest)
    rw [List.nil_append, List.nil_append] at hbreaks
    have htake := takeAscii_append hdigits hbreaks
    have hsome := List.isEmpty_eq_false_iff.2 hne
    have hsign : (decide (s = '+') || decide (s = '-')) = true := by simpa using hsign
    rw [List.cons_append, List.cons_append, exponentPart]
    simp only [hsign, htake, hsome, Bool.false_eq_true, if_false, if_true, decide_true, Bool.true_or,
      List.cons_append, List.nil_append]

/-- The characters of a number are taken from a text that does not go on with it. -/
theorem numberSpan?_text (n : Spelling) (hrest : Breaks inNumber rest) :
    numberSpan? (n.text ++ rest) = some (n.text, n.isFloat, rest) := by
  have hexponent := breaks_exponent n.exponent_form hrest
  have hfraction := breaks_fraction n.fraction_form hexponent
  have hsign : Breaks (· == '-') (n.whole ++ (n.fraction ++ (n.exponent ++ rest))) := by
    obtain ⟨c, cs, hcs⟩ := List.exists_cons_of_ne_nil n.whole_form.ne_nil
    have hdigit := n.whole_form.allDigits c (hcs ▸ List.mem_cons_self)
    rw [hcs]
    refine breaks_cons (beq_eq_false_iff_ne.2 fun heq => ?_)
    rw [heq] at hdigit
    exact absurd hdigit (by decide)
  have htext : n.text ++ rest = n.sign ++ (n.whole ++ (n.fraction ++ (n.exponent ++ rest))) := by
    simp only [Spelling.text, List.append_assoc]
  rw [htext, numberSpan?_eq]
  dsimp only
  rw [signPart_append n.sign_form hsign]
  dsimp only
  rw [wholePart_append n.whole_form hfraction]
  dsimp only
  rw [List.isEmpty_eq_false_iff.2 n.whole_form.ne_nil, if_neg Bool.false_ne_true,
    fractionPart_append n.fraction_form hexponent]
  dsimp only
  rw [exponentPart_append n.exponent_form hrest]
  rfl

/-- A number begins with a digit, or with a digit behind its sign. -/
theorem exists_digit (n : Spelling) :
    ∃ c cs, isAsciiDigit c = true ∧ (n.text = c :: cs ∨ n.text = '-' :: c :: cs) := by
  obtain ⟨c, cs, hcs⟩ := List.exists_cons_of_ne_nil n.whole_form.ne_nil
  have hdigit := n.whole_form.allDigits c (hcs ▸ List.mem_cons_self)
  refine ⟨c, cs ++ n.fraction ++ n.exponent, hdigit, ?_⟩
  unfold Spelling.text
  rw [hcs]
  rcases n.sign_form with hsign | hsign
  · exact .inl (by rw [hsign]; rfl)
  · exact .inr (by rw [hsign]; rfl)

def isWord : List Char → Bool
  | '-' :: c :: _ => !isAsciiDigit c
  | c :: _ => c != '-' && !isAsciiDigit c
  | [] => false

theorem isWord_words : ∀ w ∈ standard.words, isWord w.1 = true := by
  have hall : standard.words.all (fun w => isWord w.1) = true := by decide
  exact List.all_eq_true.1 hall

theorem isPrefixOf_number (n : Spelling) {w : List Char} (h : isWord w = true) :
    w.isPrefixOf (n.text ++ rest) = false := by
  refine Bool.eq_false_iff.2 fun hprefix => ?_
  obtain ⟨tail, htail⟩ := List.isPrefixOf_iff_prefix.1 hprefix
  obtain ⟨c, cs, hdigit, htext⟩ := exists_digit n
  unfold isWord at h
  split at h
  · rename_i d w'
    rcases htext with htext | htext <;> rw [htext] at htail
    · rw [← (List.cons.inj htail).1] at hdigit
      exact absurd hdigit (by decide)
    · rw [(List.cons.inj (List.cons.inj htail).2).1, hdigit] at h
      cases h
  · rename_i d w' _
    rw [Bool.and_eq_true] at h
    rcases htext with htext | htext <;> rw [htext] at htail
    · rw [(List.cons.inj htail).1, hdigit] at h
      cases h.2
    · rw [(List.cons.inj htail).1] at h
      cases h.1
  · cases h

theorem find?_words (n : Spelling) : standard.words.find? (fun (w, _) => w.isPrefixOf (n.text ++ rest)) = none :=
  List.find?_eq_none.2 fun w hw => Bool.eq_false_iff.1 (isPrefixOf_number n (isWord_words w hw))

/-- A number is read whatever follows that does not go on with it. -/
theorem scalar_spelling (n : Spelling) {p : Plain} (hnumber : plainNumber n.text n.isFloat = .ok p)
    (hrest : Breaks inNumber rest) : scalar standard (n.text ++ rest) = .ok (p, rest) := by
  have hnumber : standard.number n.text n.isFloat = .ok p := hnumber
  unfold scalar
  rw [find?_words n]
  dsimp only
  rw [numberSpan?_text n hrest]
  dsimp only
  rw [hnumber]

/-- The spelling of a finite double, and its plain data. A double that is no integer has to be read back from its text. -/
theorem spelling_number {x : Float} (hfinite : x.isFinite = true)
    (hread : isIntegral x = false → decimal? takeDigits (plainText x).toList = some x) :
    ∃ n : Spelling, (number x).toList = n.text ∧ plainNumber n.text n.isFloat = .ok (Plain.ofFloat x) := by
  unfold number Plain.ofFloat
  rw [hfinite]
  cases hintegral : isIntegral x with
  | true =>
    obtain ⟨n, htext, hfloat⟩ := spelling_intText (truncated x)
    have hint := readInt_intText (truncated_lt hfinite)
    refine ⟨n, htext, ?_⟩
    rw [← htext, hfloat, plainNumber, if_neg Bool.false_ne_true, String.ofList_toList, hint]
    rfl
  | false =>
    have hread := hread hintegral
    obtain ⟨n, htext, hfloat⟩ := spelling_plainText hfinite hintegral hread
    refine ⟨n, htext, ?_⟩
    rw [← htext, hfloat, plainNumber, if_pos rfl, hread]
    rfl

end DeskScript.Json
