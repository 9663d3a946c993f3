import DeskScript.Proofs.Builtin.Calls
import DeskScript.Proofs.Number.NumericText
import DeskScript.Proofs.Number.Order
import DeskScript.Proofs.Text.Trimming
import DeskScript.Proofs.Value.Equality

set_option autoImplicit false

/-!
# Numbers and their texts

A number is shown as digits, with a fraction or an exponent if it has to be, or as a word if it is infinite. The texts
that are converted to numbers are described apart from that. They hold every text that is shown, and none that the
reading of numbers refuses. Main statement: `numbers_survive_text`.
-/

namespace DeskScript

namespace Number

open DeskScript.Text
open Float.Model Float.Model.UnpackedFloat

variable {x : Float} {cs : List Char}

theorem zero_cases (h : (x == 0) = true) : x = 0 ∨ x = -0 := by
  have hmantissa := (beq_zero_iff (isFinite_of_zero h)).1 h
  have hbits : x.toBits.toNat < 18446744073709551616 := x.toBits.toNat_lt
  have hcases : x.toBits.toNat = 0 ∨ x.toBits.toNat = 9223372036854775808 := by
    rw [ofFloat_eq] at hmantissa
    split at hmantissa <;> dsimp only at hmantissa <;> omega
  rcases hcases with hpositive | hnegative
  · exact .inl (eq_of_toBits (UInt64.toNat_inj.1 hpositive))
  · exact .inr (eq_of_toBits (UInt64.toNat_inj.1 hnegative))

theorem infinite_cases (h : x.isInf = true) : x = infinity ∨ x = -infinity := by
  have hparts := packComponents_unpack x.toBits.toBitVec
  have hsame {y : Float} (hy : y.toBits.toBitVec = x.toBits.toBitVec) : x = y :=
    eq_of_toBits (UInt64.toBitVec_inj.1 hy.symm)
  change (UnpackedFloat.unpack Format.binary64 x.toBits.toBitVec).isInf = true at h
  unfold UnpackedFloat.unpack at h
  dsimp only at h
  by_cases hexponent : @unpackExponent Format.binary64 x.toBits.toBitVec = -1#_
  · rw [if_pos hexponent] at h
    by_cases hmantissa : @unpackMantissa Format.binary64 x.toBits.toBitVec = 0#_
    · rw [hexponent, hmantissa] at hparts
      cases hsign : Sign.ofBitVec (@unpackSign Format.binary64 x.toBits.toBitVec) with
      | positive =>
        rw [hsign] at hparts
        exact .inl (hsame hparts)
      | negative =>
        rw [hsign] at hparts
        exact .inr (hsame hparts)
    · rw [if_neg hmantissa] at h
      cases h
  · rw [if_neg hexponent] at h
    by_cases hsubnormal : @unpackExponent Format.binary64 x.toBits.toBitVec = 0#_
    · rw [if_pos hsubnormal] at h
      by_cases hmantissa : @unpackMantissa Format.binary64 x.toBits.toBitVec = 0#_
      · rw [dif_pos hmantissa] at h
        cases h
      · rw [dif_neg hmantissa] at h
        cases h
    · rw [if_neg hsubnormal] at h
      cases h

/-- A trimmed text has no blanks that reading would pass over. -/
theorem bare_trimmed (s : String) : bare (trimmed s) = (trimmed s).toList := by
  have hmargin (c : Char) (hc : isMargin c = true) : isBlank c = true := (Bool.and_eq_true_iff.1 hc).1
  obtain ⟨hfront, hback⟩ := trim_breaks s.toList
  unfold trimmed
  rw [bare_of_breaks (hfront.weaken hmargin) (hback.weaken hmargin), String.toList_ofList]

end Number

open Number Text

variable {x : Float} {s : String}

/-- A word that is not read as a decimal number is no numeric text. -/
theorem ne_word {word : String} (hs : s.toList ∈ numericText) (hword : decimal? takeDigits word.toList = none) : s ≠ word := by
  rintro rfl
  obtain ⟨x, hx⟩ := numericText_read hs
  cases (hx takeDigits takeDigits_reads).symm.trans hword

/-- A numeric text is read as the same number with underscores allowed and without. -/
theorem ofText?_numeric (hs : (trimmed s).toList ∈ numericText) :
    ofText? (trimmed s) = decimal? takeDigits (trimmed s).toList := by
  obtain ⟨y, hy⟩ := numericText_read hs
  unfold ofText?
  rw [bare_trimmed]
  dsimp only
  rw [hy takeGrouped takeGrouped_reads, hy takeDigits takeDigits_reads]

theorem numberOf?_numeric (hs : (trimmed s).toList ∈ numericText) :
    numberOf? (.str s) = decimal? takeDigits (trimmed s).toList := by
  unfold numberOf?
  dsimp only
  rw [decide_eq_false (ne_word hs (by decide)), decide_eq_false (ne_word hs (by decide)), Bool.false_or,
    if_neg Bool.false_ne_true, if_neg (ne_word hs (by decide))]

/-- What is converted to a number is read as the same number. -/
theorem ofText?_of_numberOf? {y : Float} (h : numberOf? (.str s) = some y) : ofText? (trimmed s) = some y := by
  have hwords (h : numberOf? (.str s) = some y) : trimmed s = "Infinity" ∧ y = infinity ∨
      trimmed s = "+Infinity" ∧ y = infinity ∨ trimmed s = "-Infinity" ∧ y = -infinity ∨
      decimal? takeDigits (trimmed s).toList = some y := by
    unfold numberOf? at h
    dsimp only at h
    split at h
    · rename_i hword
      rw [Bool.or_eq_true, decide_eq_true_eq, decide_eq_true_eq] at hword
      cases h
      exact hword.elim (fun hplain => .inl ⟨hplain, rfl⟩) fun hplus => .inr (.inl ⟨hplus, rfl⟩)
    · split at h
      · rename_i hminus
        cases h
        exact .inr (.inr (.inl ⟨hminus, rfl⟩))
      · exact .inr (.inr (.inr h))
  rcases hwords h with ⟨hs, rfl⟩ | ⟨hs, rfl⟩ | ⟨hs, rfl⟩ | hread
  · rw [hs]
    decide
  · rw [hs]
    decide
  · rw [hs]
    decide
  · rw [ofText?_numeric (numericText_of_decimal? hread), hread]

theorem trimmed_clear (hs : Clear s.toList) : trimmed s = s := by
  unfold trimmed
  rw [trim_clear hs.clear, String.ofList_toList]

theorem read_clear (hs : Clear s.toList) :
    numberOf? (.str s) = decimal? takeDigits s.toList ∧ ofText? s = decimal? takeDigits s.toList := by
  have htrimmed := trimmed_clear hs
  have hnumeric : (trimmed s).toList ∈ numericText := by
    rw [htrimmed]
    exact hs.numeric
  have hconverted := numberOf?_numeric hnumeric
  have hread := ofText?_numeric hnumeric
  rw [htrimmed] at hconverted hread
  exact ⟨hconverted, hread⟩

/-- The digits of a double are read back, if those of the plain layout are. -/
theorem numberOf?_numberText (hnan : x.isNaN = false) (hread : x.isFinite = true → ofText? (plainText x) = some x) :
    numberOf? (.str (numberText x)) = some (if x == 0 then 0 else x) := by
  unfold numberText
  rw [hnan, if_neg Bool.false_ne_true]
  by_cases hinf : x.isInf = true
  · rw [if_pos hinf]
    rcases infinite_cases hinf with rfl | rfl
    · decide
    · decide
  · have hfinite := finite_of_not (Bool.eq_false_iff.1 hnan) hinf
    rw [if_neg hinf]
    split
    · rename_i hintegral
      rw [Bool.and_eq_true] at hintegral
      rw [(read_clear (clear_intText _)).1, decimal?_truncated hintegral.1]
    · rename_i hplain
      have hzero : ¬(x == 0) = true := by
        intro hzero
        rcases zero_cases hzero with rfl | rfl
        · exact hplain (by decide +kernel)
        · exact hplain (by decide +kernel)
      obtain ⟨hconverted, hsame⟩ := read_clear (clear_plainText hfinite)
      rw [hconverted, ← hsame, hread hfinite, if_neg hzero]

theorem find?_toString : Builtin.find? "toString" = some (.conversion .toString) :=
  Builtin.find?_conversion (by decide)

theorem find?_toNumber : Builtin.find? "toNumber" = some (.conversion .toNumber) :=
  Builtin.find?_conversion (by decide)

theorem call_toString (h : Heap) (host : Host) (v : Value) :
    Builtin.call "toString" h host [v] = .gives h host (.str (h.display v)) :=
  Builtin.call_gives find?_toString rfl rfl

theorem call_toNumber (h : Heap) (host : Host) {v : Value} {y : Float} (hv : numberOf? v = some y) :
    Builtin.call "toNumber" h host [v] = .gives h host (.num y) := by
  refine Builtin.call_gives find?_toNumber rfl ?_
  change Builtin.reached h host (ConversionFn.apply .toNumber h [v]) = _
  unfold ConversionFn.apply
  dsimp only
  rw [hv]
  rfl

theorem beq_unsigned (hnan : x.isNaN = false) : ((if x == 0 then 0 else x) == x) = true := by
  split
  · rename_i hzero
    exact beq_symm hzero
  · exact beq_self hnan

/-- A number that is not NaN comes back from the text that it is shown as, but for the sign of zero, if its plain text is
read as the number. Every text that is written as a number is read as one, and what a script takes for a number is read
as the same number. -/
theorem numbers_survive_text (h : Heap) (host : Host) :
    (∀ x : Float, x.isNaN = false → (x.isFinite = true → ofText? (plainText x) = some x) →
      numberOf? (.str (h.display (.num x))) = some (if x == 0 then 0 else x) ∧
      ∃ s y, Builtin.call "toString" h host [.num x] = .gives h host (.str s) ∧
        Builtin.call "toNumber" h host [.str s] = .gives h host (.num y) ∧ (y == x) = true) ∧
    ∀ s : String, ((trimmed s).toList ∈ numericText →
        ∃ y, ofText? (trimmed s) = some y ∧ numberOf? (.str s) = some y) ∧
      ∀ y, numberOf? (.str s) = some y → ofText? (trimmed s) = some y := by
  refine ⟨fun x hnan hread => ?_, fun s => ⟨fun hs => ?_, fun y => ofText?_of_numberOf?⟩⟩
  · have hback : numberOf? (.str (h.display (.num x))) = some (if x == 0 then 0 else x) := numberOf?_numberText hnan hread
    exact ⟨hback, _, _, call_toString h host (.num x), call_toNumber h host hback, beq_unsigned hnan⟩
  · obtain ⟨y, hy⟩ := numericText_read hs
    have hy := hy takeDigits takeDigits_reads
    exact ⟨y, (ofText?_numeric hs).trans hy, (numberOf?_numeric hs).trans hy⟩

/-- A number that is shown with an exponent, and a text with blanks beside it and no digit in front of its point. -/
theorem numbers_survive_text_large : Float.isNaN 1e21 = false ∧ ofText? (plainText 1e21) = some 1e21 ∧
    numberOf? (.str (Heap.display {} (.num 1e21))) = some 1e21 ∧ (trimmed " .5 ").toList ∈ numericText ∧
    ∃ y, ofText? (trimmed " .5 ") = some y ∧ numberOf? (.str " .5 ") = some y := by
  have hnan : Float.isNaN 1e21 = false := by decide
  have hread : ofText? (plainText 1e21) = some 1e21 := by decide +kernel
  have hnumeric : (trimmed " .5 ").toList ∈ numericText := numericText_of_decimal? (x := 0.5) (by decide +kernel)
  obtain ⟨hnumbers, htexts⟩ := numbers_survive_text {} {}
  exact ⟨hnan, hread, (hnumbers 1e21 hnan fun _ => hread).1, hnumeric, (htexts " .5 ").1 hnumeric⟩

end DeskScript
