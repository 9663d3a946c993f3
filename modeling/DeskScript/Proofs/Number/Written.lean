import DeskScript.Number.Layout
import DeskScript.Number.Read
import DeskScript.Proofs.Number.Exact

set_option autoImplicit false

/-!
# The parts of a written number

An integer is written with its digits and read back from them. A double that is no integer is written with a fraction or
an exponent behind a whole part that has no leading zero. Main statements: `readInt_intText`, `spelling_intText`,
`spelling_plainText`.
-/

namespace DeskScript.Number

open DeskScript.Text

def AllDigits (cs : List Char) : Prop := ∀ c ∈ cs, isAsciiDigit c = true

def digitValues (cs : List Char) : List Nat := cs.map fun c => c.toNat - 48

def Breaks (kind : Char → Bool) (cs : List Char) : Prop := ∀ c ∈ cs.head?, kind c = false

variable {kind : Char → Bool} {cs ds rest : List Char}

theorem breaks_nil : Breaks kind [] := nofun

theorem breaks_cons {c : Char} (h : kind c = false) : Breaks kind (c :: cs) := fun _ hc => Option.some.inj hc ▸ h

theorem Breaks.weaken {kind' : Char → Bool} (h : Breaks kind cs) (himp : ∀ c, kind' c = true → kind c = true) :
    Breaks kind' cs := fun c hc => Bool.eq_false_iff.2 fun hkind => Bool.eq_false_iff.1 (h c hc) (himp c hkind)

theorem Breaks.dropWhile (h : Breaks kind cs) : cs.dropWhile kind = cs := by
  cases cs with
  | nil => rfl
  | cons c cs => rw [List.dropWhile_cons, h c rfl, if_neg Bool.false_ne_true]

theorem head?_append_left (h : cs ≠ []) : (cs ++ ds).head? = cs.head? := by
  obtain ⟨c, cs, rfl⟩ := List.exists_cons_of_ne_nil h
  rfl

theorem allDigits_append (h : AllDigits cs) (h' : AllDigits ds) : AllDigits (cs ++ ds) := fun c hc =>
  (List.mem_append.1 hc).elim (h c) (h' c)

theorem allDigits_zeros (n : Nat) : AllDigits (List.replicate n '0') := fun c hc => by
  rw [List.eq_of_mem_replicate hc]
  rfl

theorem isAsciiDigit_digitChar : ∀ d < 10, isAsciiDigit d.digitChar = true := by decide

theorem toNat_digitChar : ∀ d < 10, d.digitChar.toNat - 48 = d := by decide

theorem exists_digitChar {c : Char} (h : isAsciiDigit c = true) : ∃ d < 10, c = Nat.digitChar d := by
  have hrange : 48 ≤ c.toNat ∧ c.toNat ≤ 57 := by
    simp only [isAsciiDigit, Bool.and_eq_true, decide_eq_true_eq] at h
    exact h
  have hchars : ∀ d < 10, Char.ofNat (d + 48) = Nat.digitChar d := by decide
  refine ⟨c.toNat - 48, by omega, ?_⟩
  rw [← hchars _ (by omega), Nat.sub_add_cancel hrange.1, Char.ofNat_toNat]

theorem decimalValue?_of_digit {c : Char} (h : isAsciiDigit c = true) : decimalValue? c = some (c.toNat - 48) := by
  have hvalues : ∀ d < 10, decimalValue? (Nat.digitChar d) = some ((Nat.digitChar d).toNat - 48) := by decide
  obtain ⟨d, hd, rfl⟩ := exists_digitChar h
  exact hvalues d hd

theorem natDigits_eq (n : Nat) :
    natDigits n = if n < 10 then [n.digitChar] else natDigits (n / 10) ++ [(n % 10).digitChar] :=
  Nat.toDigits_eq_if (by decide)

theorem natDigits_ne_nil (n : Nat) : natDigits n ≠ [] := List.ne_nil_of_length_pos Nat.length_toDigits_pos

theorem natDigits_length {n k : Nat} (hk : 0 < k) (h : n < Nat.pow 10 k) : (natDigits n).length ≤ k :=
  (Nat.length_toDigits_le_iff (by decide) hk).2 h

theorem allDigits_natDigits (n : Nat) : AllDigits (natDigits n) := by
  induction n using Nat.strongRecOn with
  | ind n ih =>
    intro c hc
    rw [natDigits_eq] at hc
    split at hc
    · rename_i hsmall
      rw [List.mem_singleton.1 hc]
      exact isAsciiDigit_digitChar n hsmall
    · rcases List.mem_append.1 hc with hc | hc
      · exact ih (n / 10) (by omega) c hc
      · rw [List.mem_singleton.1 hc]
        exact isAsciiDigit_digitChar _ (Nat.mod_lt n (by decide))

theorem ofDigits_natDigits (n : Nat) : ofDigits (digitValues (natDigits n)) = n := by
  induction n using Nat.strongRecOn with
  | ind n ih =>
    rw [natDigits_eq]
    split
    · rename_i hsmall
      simp [ofDigits, digitValues, toNat_digitChar n hsmall]
    · have hlast := toNat_digitChar (n % 10) (Nat.mod_lt n (by decide))
      have hfront := ih (n / 10) (by omega)
      unfold ofDigits digitValues at hfront ⊢
      rw [List.map_append, List.foldl_append, hfront, List.map_singleton, hlast, List.foldl_cons, List.foldl_nil]
      omega

theorem head?_natDigits {n : Nat} (h : n ≠ 0) : (natDigits n).head? ≠ some '0' := by
  induction n using Nat.strongRecOn with
  | ind n ih =>
    rw [natDigits_eq]
    split
    · rename_i hsmall
      intro hzero
      have hvalue := toNat_digitChar n hsmall
      rw [Option.some.inj hzero] at hvalue
      exact h hvalue.symm
    · have hfront := ih (n / 10) (by omega) (by omega)
      rwa [head?_append_left (natDigits_ne_nil _)]

theorem takeGroupedFrom_digits (after : Bool) (h : AllDigits cs) :
    takeGroupedFrom after cs = (digitValues cs, []) := by
  induction cs generalizing after with
  | nil => rfl
  | cons c cs ih =>
    have hrest := ih true fun d hd => h d (List.mem_cons_of_mem c hd)
    rw [takeGroupedFrom, decimalValue?_of_digit (h c List.mem_cons_self)]
    dsimp only
    rw [hrest]
    rfl

theorem isMargin_of_digit {c : Char} (h : isAsciiDigit c = true) : isMargin c = false := by
  have hmargins : ∀ d < 10, isMargin (Nat.digitChar d) = false := by decide
  obtain ⟨d, hd, rfl⟩ := exists_digitChar h
  exact hmargins d hd

theorem bare_of_breaks (hfront : Breaks isMargin cs) (hback : Breaks isMargin cs.reverse) :
    bare (String.ofList cs) = cs := by
  rw [bare, String.toList_ofList, hfront.dropWhile, hback.dropWhile, List.reverse_reverse]

theorem bare_ofList (h : ∀ c ∈ cs, isMargin c = false) : bare (String.ofList cs) = cs :=
  bare_of_breaks (fun c hc => h c (List.mem_of_mem_head? hc)) fun c hc =>
    h c (List.mem_reverse.1 (List.mem_of_mem_head? hc))

theorem takeSign_digits (h : AllDigits cs) : takeSign cs = (false, cs) := by
  unfold takeSign
  split
  · exact absurd (h '-' List.mem_cons_self) (by decide)
  · exact absurd (h '+' List.mem_cons_self) (by decide)
  · rfl

theorem readInt_digits {n : Nat} (h : n < Nat.pow 10 digitLimit) (negative : Bool) :
    readInt (String.ofList (if negative then '-' :: natDigits n else natDigits n)) =
      .value (if negative then -(n : Int) else n) := by
  have hdigits := allDigits_natDigits n
  have hmargin : ∀ c ∈ (if negative then '-' :: natDigits n else natDigits n), isMargin c = false := by
    intro c hc
    cases negative with
    | false => exact isMargin_of_digit (hdigits c hc)
    | true =>
      rcases List.mem_cons.1 hc with rfl | hc
      · decide
      · exact isMargin_of_digit (hdigits c hc)
  have hsign : takeSign (if negative then '-' :: natDigits n else natDigits n) = (negative, natDigits n) := by
    cases negative with
    | false => exact takeSign_digits hdigits
    | true => rfl
  have hlength : (digitValues (natDigits n)).length ≤ digitLimit := by
    unfold digitValues
    rw [List.length_map]
    exact natDigits_length (by decide) h
  have hsome : (digitValues (natDigits n)).isEmpty = false := by
    unfold digitValues
    rw [List.isEmpty_map, List.isEmpty_eq_false_iff]
    exact natDigits_ne_nil n
  unfold readInt
  rw [bare_ofList hmargin, hsign]
  dsimp only
  rw [takeGrouped, takeGroupedFrom_digits false hdigits]
  dsimp only
  rw [hsome, List.isEmpty_nil, if_neg (by decide), if_neg (Nat.not_lt.2 hlength), ofDigits_natDigits]

/-- An integer with no more digits than are read comes back from its text. -/
theorem readInt_intText {i : Int} (h : i.natAbs < Nat.pow 10 digitLimit) : readInt (intText i) = .value i := by
  have hread := readInt_digits h (decide (i < 0))
  unfold intText
  by_cases hnegative : i < 0
  · rw [decide_eq_true hnegative, if_pos rfl, if_pos rfl] at hread
    rw [if_pos hnegative, hread, show -(i.natAbs : Int) = i by omega]
  · rw [decide_eq_false hnegative, if_neg Bool.false_ne_true, if_neg Bool.false_ne_true] at hread
    rw [if_neg hnegative, hread, show (i.natAbs : Int) = i by omega]

theorem lt_of_within {top n limit : Nat} (h : Within top n) (hlimit : 53 + top ≤ limit) : n < Nat.pow 10 limit := by
  calc
    n ≤ (2 ^ 53 - 1) * 2 ^ top := h
    _ < 2 ^ 53 * 2 ^ top := Nat.mul_lt_mul_of_pos_right (by decide) (Nat.pow_pos (by decide))
    _ = 2 ^ (53 + top) := (Nat.pow_add 2 53 top).symm
    _ ≤ 10 ^ (53 + top) := Nat.pow_le_pow_left (by decide) _
    _ ≤ 10 ^ limit := Nat.pow_le_pow_right (by decide) hlimit

/-- The integer part of a double has few enough digits. -/
theorem truncated_lt {x : Float} (h : x.isFinite = true) : (truncated x).natAbs < Nat.pow 10 digitLimit := by
  obtain ⟨hmantissa, hexponent⟩ := ofFloat_bounds h
  rw [natAbs_truncated]
  exact lt_of_within (within_ratio hmantissa hexponent) (by decide)

def IsWhole (cs : List Char) : Prop := cs = ['0'] ∨ cs ≠ [] ∧ AllDigits cs ∧ cs.head? ≠ some '0'

def IsFraction (cs : List Char) : Prop := cs = [] ∨ ∃ ds, ds ≠ [] ∧ AllDigits ds ∧ cs = '.' :: ds

def IsExponent (cs : List Char) : Prop :=
  cs = [] ∨ ∃ s ds, (s = '+' ∨ s = '-') ∧ ds ≠ [] ∧ AllDigits ds ∧ cs = 'e' :: s :: ds

/-- A number as it is written: a sign, a whole part, a fraction and an exponent. -/
structure Spelling where
  sign : List Char
  whole : List Char
  fraction : List Char
  exponent : List Char
  sign_form : sign = [] ∨ sign = ['-']
  whole_form : IsWhole whole
  fraction_form : IsFraction fraction
  exponent_form : IsExponent exponent

namespace Spelling

def text (n : Spelling) : List Char := n.sign ++ n.whole ++ n.fraction ++ n.exponent

def isFloat (n : Spelling) : Bool := !(n.fraction.isEmpty && n.exponent.isEmpty)

end Spelling

theorem IsWhole.ne_nil (h : IsWhole cs) : cs ≠ [] := by
  rcases h with rfl | h
  · exact List.cons_ne_nil _ _
  · exact h.1

theorem IsWhole.allDigits (h : IsWhole cs) : AllDigits cs := by
  rcases h with rfl | h
  · exact allDigits_zeros 1
  · exact h.2.1

theorem isWhole_natDigits (n : Nat) : IsWhole (natDigits n) := by
  by_cases hzero : n = 0
  · subst hzero
    exact .inl rfl
  · exact .inr ⟨natDigits_ne_nil n, allDigits_natDigits n, head?_natDigits hzero⟩

theorem isWhole_digit {c : Char} (h : isAsciiDigit c = true) : IsWhole [c] := by
  by_cases hzero : c = '0'
  · exact .inl (hzero ▸ rfl)
  · refine .inr ⟨List.cons_ne_nil _ _, fun d hd => List.mem_singleton.1 hd ▸ h, fun hhead => hzero ?_⟩
    exact Option.some.inj hhead

theorem IsWhole.of_append (h : IsWhole (cs ++ ds)) (hne : cs ≠ []) : IsWhole cs := by
  rcases h with heq | ⟨-, hdigits, hhead⟩
  · obtain ⟨c, cs, rfl⟩ := List.exists_cons_of_ne_nil hne
    have hempty : cs = [] := (List.append_eq_nil_iff.1 (List.cons.inj heq).2).1
    exact .inl (by rw [hempty, (List.cons.inj heq).1])
  · refine .inr ⟨hne, fun c hc => hdigits c (List.mem_append_left ds hc), ?_⟩
    rwa [head?_append_left hne] at hhead

theorem IsWhole.append (h : IsWhole cs) (hzero : cs ≠ ['0']) (hdigits : AllDigits ds) : IsWhole (cs ++ ds) := by
  obtain ⟨hne, hfront, hhead⟩ := h.resolve_left hzero
  refine .inr ⟨List.append_ne_nil_of_left_ne_nil hne ds, allDigits_append hfront hdigits, ?_⟩
  rwa [head?_append_left hne]

theorem spelling_intText (i : Int) : ∃ n : Spelling, (intText i).toList = n.text ∧ n.isFloat = false := by
  have hwhole := isWhole_natDigits i.natAbs
  by_cases hnegative : i < 0
  · refine ⟨⟨['-'], _, [], [], .inr rfl, hwhole, .inl rfl, .inl rfl⟩, ?_, rfl⟩
    simp [intText, Spelling.text, hnegative]
  · refine ⟨⟨[], _, [], [], .inl rfl, hwhole, .inl rfl, .inl rfl⟩, ?_, rfl⟩
    simp [intText, Spelling.text, hnegative]

theorem isWhole_stripZeros (n : Nat) : IsWhole (stripZeros (natDigits n)) := by
  unfold stripZeros
  split
  · exact .inl rfl
  · rename_i hne
    have hparts := List.takeWhile_append_dropWhile (p := (· = '0')) (l := (natDigits n).reverse)
    have hsplit : natDigits n = ((natDigits n).reverse.dropWhile (· = '0')).reverse ++
        ((natDigits n).reverse.takeWhile (· = '0')).reverse := by
      rw [← List.reverse_append, hparts, List.reverse_reverse]
    have hwhole := isWhole_natDigits n
    rw [hsplit] at hwhole
    exact hwhole.of_append fun hnil => hne (List.reverse_eq_nil_iff.1 hnil)

theorem isExponent_exponentText (e : Int) : IsExponent ('e' :: exponentText e) := by
  have hdigits := allDigits_natDigits e.natAbs
  refine .inr ⟨if e < 0 then '-' else '+', _, ?_, ?_, ?_, rfl⟩
  · split
    · exact .inr rfl
    · exact .inl rfl
  · split
    · exact List.cons_ne_nil _ _
    · exact natDigits_ne_nil _
  · split
    · exact allDigits_append (allDigits_zeros 1) hdigits
    · exact hdigits

def Fractional (cs : List Char) : Prop :=
  ∀ negative : Bool, ∃ n : Spelling, (if negative then '-' :: cs else cs) = n.text ∧ n.isFloat = true

theorem fractional_of_parts {whole fraction exponent : List Char} (hwhole : IsWhole whole)
    (hfraction : IsFraction fraction) (hexponent : IsExponent exponent)
    (hsome : fraction ≠ [] ∨ exponent ≠ []) : Fractional (whole ++ fraction ++ exponent) := by
  have hfloat : (!(fraction.isEmpty && exponent.isEmpty)) = true := by
    rw [Bool.not_eq_true', Bool.and_eq_false_iff]
    exact hsome.imp List.isEmpty_eq_false_iff.2 List.isEmpty_eq_false_iff.2
  intro negative
  cases negative with
  | false => exact ⟨⟨[], whole, fraction, exponent, .inl rfl, hwhole, hfraction, hexponent⟩, rfl, hfloat⟩
  | true => exact ⟨⟨['-'], whole, fraction, exponent, .inr rfl, hwhole, hfraction, hexponent⟩, rfl, hfloat⟩

/-- The plain layout of digits, unless it is a zero with zeros behind it. -/
theorem fractional_place (d : Digits) : Fractional (plainLayout.place d) ∨
    ∃ n, plainLayout.place d = List.replicate (n + 1) '0' ++ ['.', '0'] := by
  have hwhole := isWhole_stripZeros d.digits
  have hdigits := hwhole.allDigits
  have hne := hwhole.ne_nil
  unfold Layout.place
  generalize stripZeros (natDigits d.digits) = ds at hwhole hdigits hne
  generalize d.exponent = e
  dsimp only
  split
  · split
    · -- All digits stand behind the point.
      have hfraction : AllDigits (List.replicate (-e - 1).toNat '0' ++ ds) :=
        allDigits_append (allDigits_zeros _) hdigits
      have hfractional := fractional_of_parts (.inl rfl)
        (.inr ⟨_, List.append_ne_nil_of_right_ne_nil _ hne, hfraction, rfl⟩) (.inl rfl)
        (.inl (List.cons_ne_nil _ _))
      rw [List.append_nil] at hfractional
      exact .inl hfractional
    · split
      · -- All digits stand before the point, with zeros behind them that make a leading zero of a single zero.
        by_cases hzero : ds = ['0']
        · subst hzero
          exact .inr ⟨e.toNat + 1 - 1, rfl⟩
        · have hfractional := fractional_of_parts (hwhole.append hzero (allDigits_zeros (e.toNat + 1 - ds.length)))
            (.inr ⟨['0'], List.cons_ne_nil _ _, allDigits_zeros 1, rfl⟩) (.inl rfl) (.inl (List.cons_ne_nil _ _))
          rw [List.append_nil] at hfractional
          exact .inl hfractional
      · -- The point stands between the digits.
        rename_i hlong
        have htake : ds.take (e.toNat + 1) ≠ [] := by
          intro hnil
          rcases List.take_eq_nil_iff.1 hnil with hnone | hnone
          · exact Nat.succ_ne_zero _ hnone
          · exact hne hnone
        have hdrop : ds.drop (e.toNat + 1) ≠ [] := fun hnil => hlong (List.drop_eq_nil_iff.1 hnil)
        have hfront : IsWhole (ds.take (e.toNat + 1)) := by
          rw [← List.take_append_drop (e.toNat + 1) ds] at hwhole
          exact hwhole.of_append htake
        have hfractional := fractional_of_parts hfront
          (.inr ⟨_, hdrop, fun c hc => hdigits c (List.mem_of_mem_drop hc), rfl⟩) (.inl rfl)
          (.inl (List.cons_ne_nil _ _))
        rw [List.append_nil] at hfractional
        exact .inl hfractional
  · split
    · exact absurd rfl hne
    · rename_i c
      exact .inl (fractional_of_parts (isWhole_digit (hdigits c List.mem_cons_self)) (.inl rfl) (isExponent_exponentText e)
        (.inr (List.cons_ne_nil _ _)))
    · rename_i c more hmore
      have hfraction : AllDigits more := fun c' hc => hdigits c' (List.mem_cons_of_mem c hc)
      exact .inl (fractional_of_parts (isWhole_digit (hdigits c List.mem_cons_self))
        (.inr ⟨more, hmore, hfraction, rfl⟩) (isExponent_exponentText e)
        (.inl (List.cons_ne_nil _ _)))

theorem takeDigits_append (h : AllDigits ds) (hrest : Breaks (fun c => (decimalValue? c).isSome) rest) :
    takeDigits (ds ++ rest) = (digitValues ds, rest) := by
  induction ds with
  | nil =>
    cases rest with
    | nil => rfl
    | cons c rest =>
      have hnone : decimalValue? c = none := Option.isSome_eq_false_iff.1 (hrest c rfl) |> Option.isNone_iff_eq_none.1
      rw [List.nil_append, takeDigits, hnone]
      rfl
  | cons c ds ih =>
    have hrest := ih fun d hd => h d (List.mem_cons_of_mem c hd)
    rw [List.cons_append, takeDigits, decimalValue?_of_digit (h c List.mem_cons_self)]
    dsimp only
    rw [hrest]
    rfl

theorem ofDigits_zeros (n : Nat) : ofDigits (List.replicate n 0) = 0 := by
  induction n with
  | zero => rfl
  | succ n ih => exact ih

theorem decimal?_of_parts {digits : List Char → List Nat × List Char} {negative : Bool} {whole fraction : List Nat}
    {body tail : List Char} (hsign : takeSign cs = (negative, body)) (hwhole : digits body = (whole, '.' :: tail))
    (hfraction : digits tail = (fraction, rest)) (hne : whole ≠ [] ∨ fraction ≠ []) :
    decimal? digits cs = (exponentPart? digits rest).map fun e =>
      ofDecimal negative (ofDigits (whole ++ fraction)) (e - fraction.length) := by
  have hsome : (whole.isEmpty && fraction.isEmpty) = false :=
    Bool.and_eq_false_iff.2 (hne.imp List.isEmpty_eq_false_iff.2 List.isEmpty_eq_false_iff.2)
  simp only [decimal?, hsign, hwhole, hfraction, hsome, Bool.false_eq_true, if_false]

theorem decimal?_zeros (negative : Bool) (n : Nat) :
    decimal? takeDigits (if negative then '-' :: (List.replicate (n + 1) '0' ++ ['.', '0'])
      else List.replicate (n + 1) '0' ++ ['.', '0']) = some (if negative then -0 else 0) := by
  have hsign : takeSign (if negative then '-' :: (List.replicate (n + 1) '0' ++ ['.', '0'])
      else List.replicate (n + 1) '0' ++ ['.', '0']) = (negative, List.replicate (n + 1) '0' ++ ['.', '0']) := by
    cases negative <;> rfl
  have hpoint : Breaks (fun c => (decimalValue? c).isSome) ['.', '0'] := breaks_cons (by decide)
  have hwhole := takeDigits_append (allDigits_zeros (n + 1)) hpoint
  have hfraction : takeDigits ['0'] = ([0], []) := by decide
  have hvalue : ofDigits (digitValues (List.replicate (n + 1) '0') ++ [0]) = 0 := by
    unfold digitValues
    rw [List.map_replicate, show '0'.toNat - 48 = 0 from rfl, ← List.replicate_succ']
    exact ofDigits_zeros _
  rw [decimal?_of_parts hsign hwhole hfraction (.inr (List.cons_ne_nil _ _)), exponentPart?, Option.map_some, hvalue]
  rfl

open Float.Model in
theorem isNaN_isInf_of_isFinite {x : Float} (h : x.isFinite = true) : x.isNaN = false ∧ x.isInf = false := by
  change x.toModel.unpack.isNaN = false ∧ x.toModel.unpack.isInf = false
  change x.toModel.unpack.isFinite = true at h
  cases hparts : x.toModel.unpack <;> rw [hparts] at h
  case notANumber | infinity => cases h
  case zero | finite => exact ⟨rfl, rfl⟩

open Float.Model in
theorem isFinite_of_zero {x : Float} (h : (x == 0) = true) : x.isFinite = true := by
  have hzero : (0 : Float).toModel.unpack = .zero .positive := by rfl
  change (x.toModel.unpack.compare (0 : Float).toModel.unpack == some .eq) = true at h
  change x.toModel.unpack.isFinite = true
  rw [hzero] at h
  cases hparts : x.toModel.unpack <;> rw [hparts] at h
  case notANumber => cases h
  case infinity sign => cases sign <;> cases h
  case zero | finite => rfl

theorem isIntegral_of_zero {x : Float} (h : (x == 0) = true) : isIntegral x = true := by
  have hfinite := isFinite_of_zero h
  have hmantissa := (beq_zero_iff hfinite).1 h
  have hratio : (Binary.ofFloat x).ratio.1 = 0 := by
    unfold Binary.ratio
    split <;> simp [hmantissa]
  unfold isIntegral
  dsimp only
  rw [hfinite, hratio, Nat.zero_mod, Bool.true_and]
  rfl

theorem isIntegral_zero (negative : Bool) : isIntegral (if negative then -0 else 0) = true := by
  cases negative <;> decide +kernel

/-- A double that is no integer is written with a fraction or an exponent, if it is read back from its text. -/
theorem spelling_plainText {x : Float} (hfinite : x.isFinite = true) (hintegral : isIntegral x = false)
    (hread : decimal? takeDigits (plainText x).toList = some x) :
    ∃ n : Spelling, (plainText x).toList = n.text ∧ n.isFloat = true := by
  obtain ⟨hnan, hinf⟩ := isNaN_isInf_of_isFinite hfinite
  have hzero : (x == 0) = false := Bool.eq_false_iff.2 fun hzero =>
    Bool.eq_false_iff.1 hintegral (isIntegral_of_zero hzero)
  have htext : (plainText x).toList = if (Binary.ofFloat x).negative then
      '-' :: plainLayout.place (shortestDigits x) else plainLayout.place (shortestDigits x) := by
    unfold plainText Layout.text
    rw [hnan, hinf, hzero]
    exact String.toList_ofList
  rw [htext] at hread ⊢
  rcases fractional_place (shortestDigits x) with hfractional | ⟨n, hzeros⟩
  · exact hfractional _
  · -- A text of zeros is read as a zero, which is an integer.
    rw [hzeros, decimal?_zeros] at hread
    have hwhole := isIntegral_zero (Binary.ofFloat x).negative
    rw [Option.some.inj hread, hintegral] at hwhole
    cases hwhole

end DeskScript.Number
