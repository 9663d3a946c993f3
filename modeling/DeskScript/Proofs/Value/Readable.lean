import DeskScript.Value.Tree

set_option autoImplicit false

/-!
# Plain data that has a value

The plain data of a value can always be read back. The one datum that has no value is an integer beyond all doubles, and a
value holds no such integer: a finite double is at most `(2 ^ 53 - 1) * 2 ^ 971`, and no integer up to there is rounded
beyond it. Main statement: `Heap.plain_readable`.
-/

namespace DeskScript

namespace Number

open Float.Model in
theorem field_of_isFinite {x : Float} (h : x.isFinite = true) : x.toBits.toNat / Nat.pow 2 52 % Nat.pow 2 11 ≠ 2047 := by
  intro hfield
  have hexponent : @UnpackedFloat.unpackExponent Format.binary64 x.toModel.toBits.toBitVec = -1#_ := by
    apply BitVec.eq_of_toNat_eq
    simp only [UnpackedFloat.unpackExponent, BitVec.toNat_cast, BitVec.extractLsb_toNat]
    change x.toModel.toBits.toNat >>> 52 % 2 ^ 11 = 2047
    rw [Nat.shiftRight_eq_div_pow]
    exact hfield
  unfold Float.isFinite Float.Model.isFinite Float.Model.unpack UnpackedFloat.unpack at h
  rw [if_pos hexponent] at h
  split at h <;> cases h

theorem ofFloat_bounds {x : Float} (h : x.isFinite = true) :
    (Binary.ofFloat x).mantissa < Nat.pow 2 53 ∧ (Binary.ofFloat x).exponent ≤ 971 := by
  have hfield := field_of_isFinite h
  unfold Binary.ofFloat
  generalize x.toBits.toNat = bits at hfield
  have hlow : bits % Nat.pow 2 52 < Nat.pow 2 52 := Nat.mod_lt _ (by decide)
  have hhigh : bits / Nat.pow 2 52 % Nat.pow 2 11 < Nat.pow 2 11 := Nat.mod_lt _ (by decide)
  have h53 : Nat.pow 2 53 = 2 * Nat.pow 2 52 := by decide
  have h11 : Nat.pow 2 11 = 2048 := by decide
  dsimp only
  split
  · exact ⟨by dsimp only; omega, by dsimp only; omega⟩
  · exact ⟨by dsimp only; omega, by dsimp only; omega⟩

def Within (top num : Nat) : Prop := num ≤ (Nat.pow 2 53 - 1) * Nat.pow 2 top

theorem within_ratio {b : Binary} {top : Nat} (hmantissa : b.mantissa < Nat.pow 2 53) (hexponent : b.exponent ≤ top) :
    Within top (b.ratio.1 / b.ratio.2) := by
  have hscaled {k : Nat} (hk : k ≤ top) : Within top (b.mantissa * Nat.pow 2 k) :=
    Nat.mul_le_mul (Nat.le_sub_one_of_lt hmantissa) (Nat.pow_le_pow_right (by decide) hk)
  unfold Binary.ratio
  split
  · rw [Nat.div_one]
    exact hscaled (by omega)
  · refine Nat.le_trans (Nat.div_le_self _ _) ?_
    have h := hscaled (Nat.zero_le top)
    rwa [show Nat.pow 2 0 = 1 from rfl, Nat.mul_one] at h

theorem roundedQuotient_le {num den c : Nat} (hden : 0 < den) (h : num ≤ c * den) : roundedQuotient num den ≤ c := by
  have hquotient : num / den ≤ c := Nat.div_le_of_le_mul (Nat.mul_comm c den ▸ h)
  have hdivision : den * (num / den) + num % den = num := Nat.div_add_mod num den
  unfold roundedQuotient
  dsimp only
  by_cases hexact : num / den = c
  · have hrest : num % den = 0 := by
      rw [hexact, Nat.mul_comm] at hdivision
      omega
    rw [hrest, if_pos (by omega)]
    exact hquotient
  · have hbelow : num / den + 1 ≤ c := by omega
    split
    · exact hquotient
    · split
      · exact hbelow
      · split
        · exact hquotient
        · exact hbelow

theorem log2_of_within {top num : Nat} (h : Within top num) : num.log2 < 53 + top := by
  by_cases hzero : num = 0
  · subst hzero
    exact Nat.lt_of_lt_of_le (by decide) (Nat.le_add_right 53 top)
  · refine (Nat.log2_lt hzero).2 (Nat.lt_of_le_of_lt h ?_)
    rw [Nat.pow_add]
    exact Nat.mul_lt_mul_of_pos_right (by decide) (Nat.pow_pos (by decide))

theorem exponentFor_le {top num : Nat} (h : Within top num) : exponentFor num 1 ≤ top := by
  have hlog := log2_of_within h
  have hone : Nat.log2 1 = 0 := by decide
  have hguess : (num.log2 : Int) - (Nat.log2 1 : Nat) - 53 < top := by omega
  unfold exponentFor
  generalize (num.log2 : Int) - (Nat.log2 1 : Nat) - 53 = guess at hguess
  refine Int.max_le.2 ⟨?_, by omega⟩
  split <;> omega

theorem ofParts?_isSome (negative : Bool) {q : Nat} {e : Int} (he : e ≤ 971) (hq : e = 971 → q < Nat.pow 2 53) :
    (ofParts? negative q e).isSome = true := by
  have hpart (q : Nat) {e : Int} (he : e ≤ 971) : (if 971 < e then none
      else if q < Nat.pow 2 52 then some (ofBitsWithSign negative q)
      else some (ofBitsWithSign negative ((e + 1075).toNat * Nat.pow 2 52 + (q - Nat.pow 2 52)))).isSome = true := by
    rw [if_neg (by omega)]
    split <;> rfl
  unfold ofParts?
  by_cases hround : q = Nat.pow 2 53
  · have hless : e ≠ 971 := fun heq => Nat.ne_of_lt (hq heq) hround
    rw [if_pos hround]
    exact hpart _ (by omega)
  · rw [if_neg hround]
    exact hpart _ he

theorem ofRatio?_isSome (negative : Bool) {num top : Nat} (htop : top = 971) (h : Within top num) :
    (ofRatio? negative num 1).isSome = true := by
  unfold ofRatio?
  split
  · rfl
  · extract_lets e
    have he : e ≤ top := exponentFor_le h
    clear_value e
    -- At the greatest exponent the ratio is not rounded beyond the greatest mantissa.
    have hscaled (hlast : e = 971) : scaled num 1 e = (num, Nat.pow 2 top) := by
      rw [show e = (top : Int) by omega, scaled, if_pos (Int.natCast_nonneg top), Nat.one_mul, Int.toNat_natCast]
    generalize scaled num 1 e = parts at hscaled
    obtain ⟨n, d⟩ := parts
    refine ofParts?_isSome negative (by omega) fun hlast => ?_
    obtain ⟨rfl, rfl⟩ := Prod.mk.inj (hscaled hlast)
    exact Nat.lt_of_le_of_lt (roundedQuotient_le (Nat.pow_pos (by decide)) h) (by decide)

theorem natAbs_truncated (x : Float) :
    (truncated x).natAbs = (Binary.ofFloat x).ratio.1 / (Binary.ofFloat x).ratio.2 := by
  unfold truncated
  dsimp only
  split
  · rw [Int.natAbs_neg, Int.natAbs_natCast]
  · rw [Int.natAbs_natCast]

theorem ofInt?_truncated {x : Float} (h : x.isFinite = true) : (ofInt? (truncated x)).isSome = true := by
  obtain ⟨hmantissa, hexponent⟩ := ofFloat_bounds h
  rw [ofInt?, natAbs_truncated]
  exact ofRatio?_isSome _ rfl (within_ratio hmantissa hexponent)

end Number

def Plain.Readable (p : Plain) : Prop := ∀ h : Heap, ∃ v h', h.ofPlain p = .ok (v, h')

namespace Plain

theorem null_readable : Readable .null := fun h => ⟨_, h, rfl⟩

theorem str_readable (s : String) : Readable (.str s) := fun h => ⟨_, h, rfl⟩

theorem ofFloat_readable (x : Float) : (ofFloat x).Readable := by
  intro h
  unfold ofFloat
  split
  · rename_i hintegral
    obtain ⟨y, hy⟩ := Option.isSome_iff_exists.1 (Number.ofInt?_truncated (Bool.and_eq_true_iff.1 hintegral).1)
    exact ⟨.num y, h, by rw [Heap.ofPlain, hy]⟩
  · exact ⟨.num x, h, rfl⟩

theorem list_readable {items : List Plain} (hitems : ∀ p ∈ items, p.Readable) : Readable (.list items) := by
  have hread : ∀ (h : Heap) (done : Array Value), ∃ vs h', h.ofPlainItems done items = .ok (vs, h') := by
    induction items with
    | nil => exact fun h done => ⟨done, h, rfl⟩
    | cons p items ih =>
      intro h done
      obtain ⟨v, h', hp⟩ := hitems p List.mem_cons_self h
      obtain ⟨vs, h'', hrest⟩ := ih (fun q hq => hitems q (List.mem_cons_of_mem p hq)) h' (done.push v)
      exact ⟨vs, h'', by simp only [Heap.ofPlainItems, hp, hrest]⟩
  intro h
  obtain ⟨vs, h', hvs⟩ := hread h #[]
  exact ⟨_, _, by rw [Heap.ofPlain, hvs]⟩

theorem dict_readable {entries : List (String × Plain)} (hentries : ∀ e ∈ entries, e.2.Readable) :
    Readable (.dict entries) := by
  have hread : ∀ (h : Heap) (done : Dict Value), ∃ fields h', h.ofPlainEntries done entries = .ok (fields, h') := by
    induction entries with
    | nil => exact fun h done => ⟨done, h, rfl⟩
    | cons e entries ih =>
      intro h done
      obtain ⟨v, h', hp⟩ := hentries e List.mem_cons_self h
      obtain ⟨fields, h'', hrest⟩ :=
        ih (fun q hq => hentries q (List.mem_cons_of_mem e hq)) h' (done.insert e.1 v)
      exact ⟨fields, h'', by simp only [Heap.ofPlainEntries, hp, hrest]⟩
  intro h
  obtain ⟨fields, h', hfields⟩ := hread h []
  exact ⟨_, _, by rw [Heap.ofPlain, hfields]⟩

end Plain

mutual

theorem Tree.plain_readable : (t : Tree) → t.plain.Readable
  | .null | .circular => Plain.null_readable
  | .bool _ => fun h => ⟨_, h, rfl⟩
  | .num x => Plain.ofFloat_readable x
  | .str s => Plain.str_readable s
  | .list items => Plain.list_readable (Tree.plainItems_readable items)
  | .dict entries => Plain.dict_readable (Tree.plainEntries_readable entries)

theorem Tree.plainItems_readable : (items : List Tree) → ∀ p ∈ Tree.plainItems items, p.Readable
  | [], _, hp => nomatch hp
  | t :: rest, p, hp => by
    rcases List.mem_cons.1 hp with rfl | hp
    · exact Tree.plain_readable t
    · exact Tree.plainItems_readable rest p hp

theorem Tree.plainEntries_readable : (entries : List (String × Tree)) → ∀ e ∈ Tree.plainEntries entries, e.2.Readable
  | [], _, he => nomatch he
  | (k, t) :: rest, e, he => by
    rcases List.mem_cons.1 he with rfl | he
    · exact Tree.plain_readable t
    · exact Tree.plainEntries_readable rest e he

end

theorem Heap.plain_readable (h : Heap) (v : Value) : (h.plain v).Readable := Tree.plain_readable _

end DeskScript
