import DeskScript.Proofs.Number.Written
import Mathlib.Computability.Language

set_option autoImplicit false

/-!
# Texts that are written as numbers

The texts that a script may convert to a number are a regular language: a sign, digits with a point at most, an exponent.
Reading is written without it. It comes to a number exactly on the texts of the language, whether underscores between
digits are passed over or not. Main statements: `numericText_read`, `numericText_of_decimal?`.
-/

namespace DeskScript.Number

open DeskScript.Text
open scoped Computability

variable {cs ds fs ss body tail rest : List Char} {digits : List Char → List Nat × List Char} {c : Char}

def IsDecimal (c : Char) : Prop := (decimalValue? c).isSome = true

def letter (kind : Char → Prop) : Language Char := {cs | ∃ c, kind c ∧ cs = [c]}

def digit : Language Char := letter IsDecimal

def sign : Language Char := letter fun c => c = '+' ∨ c = '-'

def point : Language Char := letter (· = '.')

def exponent : Language Char := letter (fun c => c = 'e' ∨ c = 'E') * (1 + sign) * (digit * digit∗)

/-- The texts that are written as numbers: `[+-]?(\d+\.?\d*|\.\d+)([eE][+-]?\d+)?`. -/
def numericText : Language Char :=
  (1 + sign) * (digit * digit∗ * (1 + point) * digit∗ + point * (digit * digit∗)) * (1 + exponent)

theorem mem_letters {kind : Char → Prop} : cs ∈ (letter kind)∗ ↔ ∀ c ∈ cs, kind c := by
  rw [Language.mem_kstar]
  constructor
  · rintro ⟨parts, rfl, hparts⟩ c hc
    obtain ⟨part, hpart, hc⟩ := List.mem_flatten.1 hc
    obtain ⟨d, hd, rfl⟩ := hparts part hpart
    exact List.mem_singleton.1 hc ▸ hd
  · intro hcs
    refine ⟨cs.map fun c => [c], (List.flatMap_singleton' cs).symm, fun part hpart => ?_⟩
    obtain ⟨c, hc, rfl⟩ := List.mem_map.1 hpart
    exact ⟨c, hcs c hc, rfl⟩

def Decimals (cs : List Char) : Prop := ∀ c ∈ cs, IsDecimal c

theorem mem_digits : cs ∈ digit * digit∗ ↔ cs ≠ [] ∧ Decimals cs := by
  rw [Language.mem_mul]
  constructor
  · rintro ⟨_, ⟨c, hc, rfl⟩, rest, hrest, rfl⟩
    exact ⟨List.cons_ne_nil _ _, List.forall_mem_cons.2 ⟨hc, mem_letters.1 hrest⟩⟩
  · rintro ⟨hne, hcs⟩
    obtain ⟨c, cs, rfl⟩ := List.exists_cons_of_ne_nil hne
    obtain ⟨hc, hcs⟩ := List.forall_mem_cons.1 hcs
    exact ⟨[c], ⟨c, hc, rfl⟩, cs, mem_letters.2 hcs, rfl⟩

def IsSign (cs : List Char) : Prop := cs = [] ∨ cs = ['+'] ∨ cs = ['-']

theorem mem_sign : cs ∈ 1 + sign ↔ IsSign cs := by
  rw [Language.mem_add, Language.mem_one]
  constructor
  · rintro (rfl | ⟨c, rfl | rfl, rfl⟩)
    · exact .inl rfl
    · exact .inr (.inl rfl)
    · exact .inr (.inr rfl)
  · rintro (rfl | rfl | rfl)
    · exact .inl rfl
    · exact .inr ⟨'+', .inl rfl, rfl⟩
    · exact .inr ⟨'-', .inr rfl, rfl⟩

inductive IsBody : List Char → Prop where
  | whole {ds : List Char} (hne : ds ≠ []) (hds : Decimals ds) : IsBody ds
  | pointed {ds fs : List Char} (hds : Decimals ds) (hfs : Decimals fs) (hne : ds ≠ [] ∨ fs ≠ []) :
      IsBody (ds ++ '.' :: fs)

theorem mem_body : cs ∈ digit * digit∗ * (1 + point) * digit∗ + point * (digit * digit∗) ↔ IsBody cs := by
  rw [Language.mem_add]
  constructor
  · rintro (hcs | hcs)
    · obtain ⟨_, hfront, fs, hfs, rfl⟩ := Language.mem_mul.1 hcs
      obtain ⟨ds, hds, p, hp, rfl⟩ := Language.mem_mul.1 hfront
      obtain ⟨hne, hds⟩ := mem_digits.1 hds
      have hfs := mem_letters.1 hfs
      rcases hp with rfl | ⟨c, rfl, rfl⟩
      · rw [List.append_nil]
        exact .whole (List.append_ne_nil_of_left_ne_nil hne _) (List.forall_mem_append.2 ⟨hds, hfs⟩)
      · rw [List.append_assoc]
        exact .pointed hds hfs (.inl hne)
    · obtain ⟨_, ⟨c, rfl, rfl⟩, fs, hfs, rfl⟩ := Language.mem_mul.1 hcs
      obtain ⟨hne, hfs⟩ := mem_digits.1 hfs
      exact @IsBody.pointed [] fs (fun _ hd => (List.not_mem_nil hd).elim) hfs (.inr hne)
  · intro hcs
    cases hcs with
    | whole hne hds =>
      refine .inl (Language.mem_mul.2 ⟨cs, Language.mem_mul.2 ⟨cs, mem_digits.2 ⟨hne, hds⟩, [], .inl rfl, ?_⟩, [],
        Language.nil_mem_kstar _, ?_⟩)
      · exact List.append_nil cs
      · exact List.append_nil cs
    | @pointed ds fs hds hfs hne =>
      by_cases hnone : ds = []
      · subst hnone
        exact .inr (Language.mem_mul.2 ⟨['.'], ⟨'.', rfl, rfl⟩, fs, mem_digits.2 ⟨hne.resolve_left fun h => h rfl, hfs⟩, rfl⟩)
      · refine .inl (Language.mem_mul.2 ⟨ds ++ ['.'], Language.mem_mul.2 ⟨ds, mem_digits.2 ⟨hnone, hds⟩, ['.'],
          .inr ⟨'.', rfl, rfl⟩, rfl⟩, fs, mem_letters.2 hfs, ?_⟩)
        rw [List.append_assoc]
        rfl

inductive IsTail : List Char → Prop where
  | none : IsTail []
  | exponent {c : Char} {ss ds : List Char} (hc : c = 'e' ∨ c = 'E') (hss : IsSign ss) (hne : ds ≠ [])
      (hds : Decimals ds) : IsTail (c :: (ss ++ ds))

theorem mem_tail : cs ∈ 1 + exponent ↔ IsTail cs := by
  rw [Language.mem_add, Language.mem_one]
  constructor
  · rintro (rfl | hcs)
    · exact .none
    · obtain ⟨_, hfront, ds, hds, rfl⟩ := Language.mem_mul.1 hcs
      obtain ⟨_, ⟨c, hc, rfl⟩, ss, hss, rfl⟩ := Language.mem_mul.1 hfront
      obtain ⟨hne, hds⟩ := mem_digits.1 hds
      exact .exponent hc (mem_sign.1 hss) hne hds
  · intro hcs
    cases hcs with
    | none => exact .inl rfl
    | @exponent c ss ds hc hss hne hds =>
      exact .inr (Language.mem_mul.2 ⟨[c] ++ ss, Language.mem_mul.2 ⟨[c], ⟨c, hc, rfl⟩, ss, mem_sign.2 hss, rfl⟩, ds,
        mem_digits.2 ⟨hne, hds⟩, rfl⟩)

theorem mem_numericText :
    cs ∈ numericText ↔ ∃ ss body tail, IsSign ss ∧ IsBody body ∧ IsTail tail ∧ cs = ss ++ (body ++ tail) := by
  unfold numericText
  rw [Language.mem_mul]
  constructor
  · rintro ⟨_, hfront, tail, htail, rfl⟩
    obtain ⟨ss, hss, body, hbody, rfl⟩ := Language.mem_mul.1 hfront
    exact ⟨ss, body, tail, mem_sign.1 hss, mem_body.1 hbody, mem_tail.1 htail, List.append_assoc ..⟩
  · rintro ⟨ss, body, tail, hss, hbody, htail, rfl⟩
    exact ⟨ss ++ body, Language.mem_mul.2 ⟨ss, mem_sign.2 hss, body, mem_body.2 hbody, rfl⟩, tail, mem_tail.2 htail,
      List.append_assoc ..⟩

/-- A text that goes on behind digits: with a point, with an exponent or not at all. -/
def Stops (cs : List Char) : Prop := ∀ c ∈ cs.head?, c = '.' ∨ c = 'e' ∨ c = 'E'

def Reads (digits : List Char → List Nat × List Char) : Prop :=
  ∀ ds rest, Decimals ds → Stops rest → digits (ds ++ rest) = (ds.filterMap decimalValue?, rest)

theorem stops_point : Stops ('.' :: cs) := fun _ hc => .inl (Option.some.inj hc).symm

theorem IsTail.stops (htail : IsTail tail) : Stops tail := by
  cases htail with
  | none => exact fun _ hc => nomatch hc
  | exponent hc => exact fun _ hd => Option.some.inj hd ▸ .inr hc

theorem Stops.not_decimal (hrest : Stops (c :: rest)) : decimalValue? c = none ∧ c ≠ '_' := by
  rcases hrest c rfl with rfl | rfl | rfl <;> decide

theorem takeGroupedFrom_reads (after : Bool) (hds : Decimals ds) (hrest : Stops rest) :
    takeGroupedFrom after (ds ++ rest) = (ds.filterMap decimalValue?, rest) := by
  induction ds generalizing after with
  | nil =>
    cases rest with
    | nil => rfl
    | cons c rest =>
      obtain ⟨hnone, hline⟩ := hrest.not_decimal
      rw [List.nil_append, takeGroupedFrom, hnone]
      dsimp only
      rw [decide_eq_false hline, Bool.and_false, Bool.false_and, if_neg Bool.false_ne_true]
      rfl
  | cons c ds ih =>
    obtain ⟨hc, hds⟩ := List.forall_mem_cons.1 hds
    obtain ⟨d, hd⟩ := Option.isSome_iff_exists.1 hc
    rw [List.cons_append, takeGroupedFrom, hd]
    dsimp only
    rw [ih true hds, List.filterMap_cons_some hd]

theorem takeGrouped_reads : Reads takeGrouped := fun _ _ => takeGroupedFrom_reads false

theorem takeDigits_reads : Reads takeDigits := by
  intro ds rest hds hrest
  induction ds with
  | nil =>
    cases rest with
    | nil => rfl
    | cons c rest =>
      rw [List.nil_append, takeDigits, hrest.not_decimal.1]
      rfl
  | cons c ds ih =>
    obtain ⟨hc, hds⟩ := List.forall_mem_cons.1 hds
    obtain ⟨d, hd⟩ := Option.isSome_iff_exists.1 hc
    rw [List.cons_append, takeDigits, hd]
    dsimp only
    rw [ih hds, List.filterMap_cons_some hd]

theorem values_ne_nil (hne : ds ≠ []) (hds : Decimals ds) : ds.filterMap decimalValue? ≠ [] := by
  obtain ⟨c, ds, rfl⟩ := List.exists_cons_of_ne_nil hne
  obtain ⟨d, hd⟩ := Option.isSome_iff_exists.1 (hds c List.mem_cons_self)
  rw [List.filterMap_cons_some hd]
  exact List.cons_ne_nil _ _

/-- A sign is taken off what does not begin with another. -/
theorem takeSign_append (hss : IsSign ss) (hrest : ∀ c ∈ rest.head?, c ≠ '+' ∧ c ≠ '-') :
    takeSign (ss ++ rest) = (decide (ss = ['-']), rest) := by
  rcases hss with rfl | rfl | rfl
  · rw [List.nil_append]
    unfold takeSign
    split
    · exact absurd rfl (hrest '-' rfl).2
    · exact absurd rfl (hrest '+' rfl).1
    · rfl
  · rfl
  · rfl

theorem IsDecimal.not_sign (hc : IsDecimal c) : c ≠ '+' ∧ c ≠ '-' := by
  have hplus : ¬(decimalValue? '+').isSome = true := by decide
  have hminus : ¬(decimalValue? '-').isSome = true := by decide
  exact ⟨fun heq => hplus (heq ▸ hc), fun heq => hminus (heq ▸ hc)⟩

theorem Decimals.not_sign (hne : ds ≠ []) (hds : Decimals ds) : ∀ c ∈ (ds ++ rest).head?, c ≠ '+' ∧ c ≠ '-' := by
  obtain ⟨d, ds, rfl⟩ := List.exists_cons_of_ne_nil hne
  exact fun c hc => Option.some.inj hc ▸ (hds d List.mem_cons_self).not_sign

theorem IsTail.read (htail : IsTail tail) : ∃ e, ∀ digits, Reads digits → exponentPart? digits tail = some e := by
  cases htail with
  | none => exact ⟨0, fun _ _ => rfl⟩
  | @exponent c ss ds hc hss hne hds =>
    have hletter : (decide (c = 'e') || decide (c = 'E')) = true := by
      rw [Bool.or_eq_true, decide_eq_true_eq, decide_eq_true_eq]
      exact hc
    have hmark : ∀ c ∈ (ds ++ []).head?, c ≠ '+' ∧ c ≠ '-' := Decimals.not_sign hne hds
    have hsign := takeSign_append hss hmark
    have hvalues := List.isEmpty_eq_false_iff.2 (values_ne_nil hne hds)
    refine ⟨if decide (ss = ['-']) then -(ofDigits (ds.filterMap decimalValue?) : Int)
      else ofDigits (ds.filterMap decimalValue?), fun digits hreads => ?_⟩
    have hdigits := hreads ds [] hds nofun
    rw [List.append_nil] at hsign hdigits
    rw [exponentPart?, if_pos hletter, hsign]
    dsimp only
    rw [hdigits]
    dsimp only
    rw [hvalues, List.isEmpty_nil, if_neg (by decide)]

/-- Digits that go on in front of an exponent have no fraction. -/
theorem decimal?_of_whole {negative : Bool} {values : List Nat} (htail : IsTail tail)
    (hsign : takeSign cs = (negative, rest)) (hwhole : digits rest = (values, tail)) (hne : values ≠ []) :
    decimal? digits cs = (exponentPart? digits tail).map fun e => ofDecimal negative (ofDigits values) e := by
  have hvalues := List.isEmpty_eq_false_iff.2 hne
  unfold decimal?
  rw [hsign]
  dsimp only
  rw [hwhole]
  dsimp only
  split
  · cases htail with
    | exponent hc => exact absurd hc (by decide)
  · rw [hvalues, Bool.false_and, if_neg Bool.false_ne_true]
    simp

theorem IsBody.read (hbody : IsBody body) (htail : IsTail tail) (negative : Bool) : ∃ x, ∀ digits cs, Reads digits →
    takeSign cs = (negative, body ++ tail) → decimal? digits cs = some x := by
  obtain ⟨e, htailRead⟩ := htail.read
  cases hbody with
  | whole hne hds =>
    refine ⟨ofDecimal negative (ofDigits (body.filterMap decimalValue?)) e, fun digits cs hreads hsign => ?_⟩
    have hwhole := hreads body tail hds htail.stops
    rw [decimal?_of_whole htail hsign hwhole (values_ne_nil hne hds), htailRead digits hreads]
    rfl
  | @pointed ds fs hds hfs hne =>
    refine ⟨ofDecimal negative (ofDigits (ds.filterMap decimalValue? ++ fs.filterMap decimalValue?))
      (e - (fs.filterMap decimalValue?).length), fun digits cs hreads hsign => ?_⟩
    rw [List.append_assoc] at hsign
    have hwhole := hreads ds ('.' :: (fs ++ tail)) hds stops_point
    have hfraction := hreads fs tail hfs htail.stops
    have hsome := hne.imp (values_ne_nil · hds) (values_ne_nil · hfs)
    rw [decimal?_of_parts hsign hwhole hfraction hsome, htailRead digits hreads]
    rfl

theorem IsBody.not_sign (hbody : IsBody body) : ∀ c ∈ (body ++ tail).head?, c ≠ '+' ∧ c ≠ '-' := by
  cases hbody with
  | whole hne hds => exact hds.not_sign hne
  | @pointed ds fs hds =>
    rw [List.append_assoc]
    by_cases hne : ds = []
    · subst hne
      exact fun c hc => Option.some.inj hc ▸ ⟨by decide, by decide⟩
    · exact hds.not_sign hne

/-- A text of the language is read as a number, and as the same one by every reader of digits. -/
theorem numericText_read (hcs : cs ∈ numericText) : ∃ x, ∀ digits, Reads digits → decimal? digits cs = some x := by
  obtain ⟨ss, body, tail, hss, hbody, htail, rfl⟩ := mem_numericText.1 hcs
  obtain ⟨x, hread⟩ := hbody.read htail (decide (ss = ['-']))
  exact ⟨x, fun digits hreads => hread digits _ hreads (takeSign_append hss hbody.not_sign)⟩

theorem takeSign_spec {negative : Bool} (h : takeSign cs = (negative, rest)) : ∃ ss, IsSign ss ∧ cs = ss ++ rest := by
  unfold takeSign at h
  split at h <;> cases h
  · exact ⟨['-'], .inr (.inr rfl), rfl⟩
  · exact ⟨['+'], .inr (.inl rfl), rfl⟩
  · exact ⟨[], .inl rfl, rfl⟩

theorem takeDigits_spec {values : List Nat} (h : takeDigits cs = (values, rest)) :
    ∃ ds, Decimals ds ∧ cs = ds ++ rest ∧ values = ds.filterMap decimalValue? := by
  induction cs generalizing values with
  | nil =>
    cases h
    exact ⟨[], nofun, rfl, rfl⟩
  | cons c cs ih =>
    unfold takeDigits at h
    cases hc : decimalValue? c with
    | none =>
      rw [hc] at h
      cases h
      exact ⟨[], nofun, rfl, rfl⟩
    | some d =>
      rw [hc] at h
      cases h
      obtain ⟨ds, hds, hcs, hvalues⟩ := ih rfl
      have hdecimal : IsDecimal c := Option.isSome_iff_exists.2 ⟨d, hc⟩
      refine ⟨c :: ds, List.forall_mem_cons.2 ⟨hdecimal, hds⟩, congrArg (c :: ·) hcs, ?_⟩
      rw [List.filterMap_cons_some hc, hvalues]

theorem ne_nil_of_values (h : ds.filterMap decimalValue? ≠ []) : ds ≠ [] := by
  rintro rfl
  exact h rfl

theorem isTail_of_exponentPart? {e : Int} (h : exponentPart? takeDigits cs = some e) : IsTail cs := by
  unfold exponentPart? at h
  split at h
  · exact .none
  · rename_i c rest
    split at h
    · rename_i hc
      rw [Bool.or_eq_true, decide_eq_true_eq, decide_eq_true_eq] at hc
      cases hsign : takeSign rest with
      | mk negative rest =>
        cases hdigits : takeDigits rest with
        | mk values rest' =>
          rw [hsign] at h
          dsimp only at h
          rw [hdigits] at h
          dsimp only at h
          split at h
          · cases h
          · rename_i hends
            rw [Bool.or_eq_true, not_or, Bool.not_eq_true', Bool.not_eq_false, List.isEmpty_iff] at hends
            obtain ⟨hvalues, hempty⟩ := hends
            obtain rfl := List.isEmpty_iff.1 hempty
            obtain ⟨ss, hss, rfl⟩ := takeSign_spec hsign
            obtain ⟨ds, hds, rfl, rfl⟩ := takeDigits_spec hdigits
            rw [List.append_nil]
            exact .exponent hc hss (ne_nil_of_values hvalues) hds
    · cases h

theorem numericText_of_decimal? {x : Float} (h : decimal? takeDigits cs = some x) : cs ∈ numericText := by
  unfold decimal? at h
  cases hsign : takeSign cs with
  | mk negative rest =>
    cases hwhole : takeDigits rest with
    | mk values rest' =>
      rw [hsign] at h
      dsimp only at h
      rw [hwhole] at h
      dsimp only at h
      obtain ⟨ss, hss, rfl⟩ := takeSign_spec hsign
      obtain ⟨ds, hds, rfl, rfl⟩ := takeDigits_spec hwhole
      -- Without a point there is no fraction.
      split at h
      · rename_i tail
        cases hfraction : takeDigits tail with
        | mk values rest =>
          rw [hfraction] at h
          dsimp only at h
          obtain ⟨fs, hfs, rfl, rfl⟩ := takeDigits_spec hfraction
          split at h
          · cases h
          · rename_i hsome
            obtain ⟨e, he, -⟩ := Option.map_eq_some_iff.1 h
            rw [Bool.and_eq_true, not_and_or, List.isEmpty_iff, List.isEmpty_iff] at hsome
            have hne := hsome.imp ne_nil_of_values ne_nil_of_values
            refine mem_numericText.2 ⟨ss, _, rest, hss, .pointed hds hfs hne, isTail_of_exponentPart? he, ?_⟩
            rw [List.append_assoc, List.cons_append]
      · split at h
        · cases h
        · rename_i hsome
          obtain ⟨e, he, -⟩ := Option.map_eq_some_iff.1 h
          rw [List.isEmpty_nil, Bool.and_true, List.isEmpty_iff] at hsome
          exact mem_numericText.2 ⟨ss, ds, _, hss, .whole (ne_nil_of_values hsome) hds, isTail_of_exponentPart? he, rfl⟩

structure Clear (cs : List Char) : Prop where
  numeric : cs ∈ numericText
  clear : ∀ c ∈ cs, isBlank c = false

theorem isBlank_of_digit (h : isAsciiDigit c = true) : isBlank c = false := by
  have hblanks : ∀ d < 10, isBlank (Nat.digitChar d) = false := by decide
  obtain ⟨d, hd, rfl⟩ := exists_digitChar h
  exact hblanks d hd

theorem AllDigits.decimals (h : AllDigits ds) : Decimals ds := fun c hc => by
  unfold IsDecimal
  rw [decimalValue?_of_digit (h c hc)]
  rfl

theorem AllDigits.clear (h : AllDigits ds) : ∀ c ∈ ds, isBlank c = false := fun c hc => isBlank_of_digit (h c hc)

theorem Spelling.clear (n : Spelling) : Clear n.text := by
  obtain ⟨ss, whole, fraction, exponent, hsign, hwhole, hfraction, hexponent⟩ := n
  have hds := hwhole.allDigits
  have hfront : IsSign ss ∧ ∀ c ∈ ss, isBlank c = false := by
    rcases hsign with rfl | rfl
    · exact ⟨.inl rfl, nofun⟩
    · exact ⟨.inr (.inr rfl), List.forall_mem_singleton.2 (by decide)⟩
  have hbody : IsBody (whole ++ fraction) ∧ ∀ c ∈ whole ++ fraction, isBlank c = false := by
    rcases hfraction with rfl | ⟨fs, -, hfs, rfl⟩
    · rw [List.append_nil]
      exact ⟨.whole hwhole.ne_nil hds.decimals, hds.clear⟩
    · refine ⟨.pointed hds.decimals hfs.decimals (.inl hwhole.ne_nil), List.forall_mem_append.2 ⟨hds.clear, ?_⟩⟩
      exact List.forall_mem_cons.2 ⟨by decide, hfs.clear⟩
  have htail : IsTail exponent ∧ ∀ c ∈ exponent, isBlank c = false := by
    rcases hexponent with rfl | ⟨s, ds, hs, hne, hds, rfl⟩
    · exact ⟨.none, nofun⟩
    · have hsign : IsSign [s] ∧ isBlank s = false := by
        rcases hs with rfl | rfl
        · exact ⟨.inr (.inl rfl), by decide⟩
        · exact ⟨.inr (.inr rfl), by decide⟩
      exact ⟨.exponent (.inl rfl) hsign.1 hne hds.decimals,
        List.forall_mem_cons.2 ⟨by decide, List.forall_mem_cons.2 ⟨hsign.2, hds.clear⟩⟩⟩
  unfold Spelling.text
  dsimp only
  constructor
  · exact mem_numericText.2 ⟨ss, _, _, hfront.1, hbody.1, htail.1, by simp⟩
  · rw [List.append_assoc ss]
    exact List.forall_mem_append.2 ⟨List.forall_mem_append.2 ⟨hfront.2, hbody.2⟩, htail.2⟩

/-- The digits of a double in the plain layout, with a sign or without. -/
theorem clear_place (d : Digits) (negative : Bool) :
    Clear (if negative then '-' :: plainLayout.place d else plainLayout.place d) := by
  rcases fractional_place d with hfractional | ⟨n, hzeros⟩
  · obtain ⟨n, hn, -⟩ := hfractional negative
    rw [hn]
    exact n.clear
  · have hbody : IsBody (List.replicate (n + 1) '0' ++ '.' :: ['0']) :=
      .pointed (allDigits_zeros _).decimals (allDigits_zeros 1).decimals (.inr (List.cons_ne_nil _ _))
    have hclear : ∀ c ∈ List.replicate (n + 1) '0' ++ '.' :: ['0'], isBlank c = false :=
      List.forall_mem_append.2 ⟨(allDigits_zeros _).clear, List.forall_mem_cons.2 ⟨by decide, (allDigits_zeros 1).clear⟩⟩
    rw [hzeros]
    cases negative with
    | false => exact ⟨mem_numericText.2 ⟨[], _, [], .inl rfl, hbody, .none, (List.append_nil _).symm⟩, hclear⟩
    | true => exact ⟨mem_numericText.2 ⟨['-'], _, [], .inr (.inr rfl), hbody, .none, by simp⟩,
        List.forall_mem_cons.2 ⟨by decide, hclear⟩⟩

theorem clear_plainText {x : Float} (hx : x.isFinite = true) : Clear (plainText x).toList := by
  obtain ⟨hnan, hinf⟩ := isNaN_isInf_of_isFinite hx
  unfold plainText Layout.text
  rw [hnan, hinf]
  dsimp only
  rw [if_neg Bool.false_ne_true, if_neg Bool.false_ne_true, String.toList_ofList]
  cases x == 0 with
  | true => exact clear_place ⟨0, 1, 0⟩ (Binary.ofFloat x).negative
  | false => exact clear_place (shortestDigits x) (Binary.ofFloat x).negative

theorem clear_intText (i : Int) : Clear (intText i).toList := by
  obtain ⟨n, hn, -⟩ := spelling_intText i
  rw [hn]
  exact n.clear

theorem ofDecimal_nat {n : Nat} {x : Float} {negative : Bool} (hn : 0 < n) (hlength : (natDigits n).length ≤ 330)
    (hx : ofRatio? negative n 1 = some x) : ofDecimal negative n 0 = x := by
  have hpos := List.length_pos_iff.2 (natDigits_ne_nil n)
  unfold natDigits at hlength hpos
  have hsmall : ¬((decide (n = 0) || decide (((Nat.toDigits 10 n).length : Int) + 0 < -330)) = true) := by
    rw [Bool.or_eq_true, decide_eq_true_eq, decide_eq_true_eq]
    omega
  unfold ofDecimal
  dsimp only
  rw [if_neg hsmall, if_neg (by omega), if_pos (Int.le_refl 0), Int.toNat_zero,
    show n * Nat.pow 10 0 = n from Nat.mul_one n, hx]
  rfl

/-- The digits of an integer are read as the double nearest to it. -/
theorem decimal?_intText {i : Int} {x : Float} (hi : (natDigits i.natAbs).length ≤ 330) (hx : ofInt? i = some x) :
    decimal? takeDigits (intText i).toList = some x := by
  have hdigits := allDigits_natDigits i.natAbs
  have htaken : takeDigits (natDigits i.natAbs ++ []) = (digitValues (natDigits i.natAbs), []) :=
    takeDigits_append hdigits breaks_nil
  have hne : digitValues (natDigits i.natAbs) ≠ [] := mt List.map_eq_nil_iff.1 (natDigits_ne_nil _)
  rw [List.append_nil] at htaken
  have hsign : takeSign (intText i).toList = (decide (i < 0), natDigits i.natAbs) := by
    unfold intText
    rw [String.toList_ofList]
    by_cases hnegative : i < 0
    · rw [if_pos hnegative, decide_eq_true hnegative]
      rfl
    · rw [if_neg hnegative, decide_eq_false hnegative, takeSign_digits hdigits]
  rw [decimal?_of_whole .none hsign htaken hne, ofDigits_natDigits, exponentPart?, Option.map_some]
  rcases Nat.eq_zero_or_pos i.natAbs with hzero | hpos
  · obtain rfl := Int.natAbs_eq_zero.1 hzero
    have hnone : ofInt? 0 = some 0 := rfl
    rw [← hx, hnone]
    rfl
  · rw [ofDecimal_nat hpos hi hx]

/-- The digits of an integral double are read as the double; only the sign of zero is lost. -/
theorem decimal?_truncated {x : Float} (hx : isIntegral x = true) :
    decimal? takeDigits (intText (truncated x)).toList = some (if x == 0 then 0 else x) := by
  obtain ⟨top, htop⟩ : ∃ top, top = 971 := ⟨_, rfl⟩
  obtain ⟨limit, hlimit⟩ : ∃ limit, limit = 330 := ⟨_, rfl⟩
  have hgreatest : (Nat.pow 2 53 - 1) * Nat.pow 2 top < Nat.pow 10 limit := by rw [htop, hlimit]; decide +kernel
  obtain ⟨hmantissa, hexponent⟩ := ofFloat_bounds (Bool.and_eq_true_iff.1 hx).1
  have hwithin : Within top (truncated x).natAbs := natAbs_truncated x ▸ within_ratio hmantissa (by omega)
  have hlength := natDigits_length (by omega) (Nat.lt_of_le_of_lt hwithin hgreatest)
  exact decimal?_intText (hlimit ▸ hlength) (ofInt?_truncated_of_integral hx)

end DeskScript.Number
