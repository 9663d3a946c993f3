import DeskScript.Proofs.Builtin.Calls
import DeskScript.Proofs.Json.Reading
import DeskScript.Proofs.Value.Restoring

set_option autoImplicit false

/-!
# Values go to JSON and come back

The text of a value is read to the plain data of the value, and plain data is made into a value that mirrors the first.
Main statement: `fromJson_toJson`.
-/

namespace DeskScript

variable {h g g' : Heap} {v w : Value} {host : Host}

theorem find?_toJson : Builtin.find? "toJSON" = some (.conversion .toJson) :=
  Builtin.find?_conversion (by simp [ConversionFn.table])

theorem find?_fromJson : Builtin.find? "fromJSON" = some (.conversion .fromJson) :=
  Builtin.find?_conversion (by simp [ConversionFn.table])

theorem call_fromJson {s : String} {p : Plain} (hdocument : Json.document Json.standard s.toList = .ok p)
    (hplain : g.ofPlain p = .ok (w, g')) : Builtin.call "fromJSON" g host [.str s] = .gives g' host w := by
  have happly : ConversionFn.apply .fromJson g [.str s] = Outcome.give g' w := by
    rw [ConversionFn.apply, hdocument]
    dsimp only
    rw [hplain]
  exact Builtin.call_gives find?_fromJson rfl (congrArg (Builtin.reached g host) happly)

theorem toJson_complaint? (v : Value) (indent : Option Float) :
    (ConversionFn.signature .toJson).complaint? "toJSON" (v :: (indent.map Value.num).toList) = none := by
  cases indent <;> rfl

theorem apply_toJson (h : Heap) (v : Value) {indent : Option Float} (hindent : ∀ x ∈ indent, x.isFinite = true) :
    ConversionFn.apply .toJson h (v :: (indent.map Value.num).toList) =
      (ConversionFn.jsonText h v (indent.map fun x => max 0 (Number.truncated x))).bind fun text =>
        Outcome.text h text := by
  cases indent with
  | none => rfl
  | some x =>
    have hargument : Builtin.intArgument "toJSON" x = .ok (Number.truncated x) := if_pos (hindent x rfl)
    simp only [ConversionFn.apply, Option.map_some, Option.toList_some, hargument]
    rfl

theorem call_toJson (h : Heap) (host : Host) (v : Value) {indent : Option Float}
    (hindent : ∀ x ∈ indent, x.isFinite = true) :
    Builtin.call "toJSON" h host (v :: (indent.map Value.num).toList) =
      match ConversionFn.jsonText h v (indent.map fun x => max 0 (Number.truncated x)) with
      | .ok text => .gives h host (.str text)
      | .error e => ⟨.error (Builtin.wrap false "toJSON" e), h, host⟩ := by
  have happly := congrArg (Builtin.reached h host) (apply_toJson h v hindent)
  rw [Builtin.call_eq find?_toJson (toJson_complaint? v indent) happly]
  cases ConversionFn.jsonText h v (indent.map fun x => max 0 (Number.truncated x)) <;> rfl

def layoutOf (indent : Option Float) : Json.Indent := indent.map fun x => (max 0 (Number.truncated x)).toNat

theorem jsonText_some (h : Heap) (hv : v.kind ≠ .string) (n : Int) : ConversionFn.jsonText h v (some n) =
    if Builtin.indexLimit < n then .error (.fault .countTooLarge) else .ok (h.json v (some n.toNat)) := by
  cases v with
  | str s => exact absurd rfl hv
  | _ => rfl

/-- A value is written unless its lines are to be indented by more blanks than an index can count. -/
theorem jsonText_requested (h : Heap) (v : Value) (indent : Option Float) :
    ConversionFn.jsonText h v (indent.map fun x => max 0 (Number.truncated x)) = .ok (h.json v (layoutOf indent)) ∨
      v.kind ≠ .string ∧ ∃ x ∈ indent, Builtin.indexLimit < Number.truncated x ∧
        ConversionFn.jsonText h v (indent.map fun x => max 0 (Number.truncated x)) = .error (.fault .countTooLarge) := by
  by_cases hv : v.kind = .string
  · cases v with
    | str s => exact .inl rfl
    | _ => cases hv
  cases indent with
  | none =>
    refine .inl ?_
    cases v <;> rfl
  | some x =>
    have hlimit : 0 ≤ Builtin.indexLimit := by decide
    rw [Option.map_some, jsonText_some h hv]
    by_cases hbeyond : Builtin.indexLimit < Number.truncated x
    · refine .inr ⟨hv, x, rfl, hbeyond, ?_⟩
      rw [Int.max_eq_right (by omega), if_pos hbeyond]
    · rw [if_neg (by omega)]
      exact .inl rfl

/-- **JSON round trip.** A value without cycles whose numbers are finite is written as a text that is read back, on any
heap, to a mirror of the value. Only what is to be indented by more blanks than an index can count is not written. -/
theorem fromJson_toJson (hv : h.Regular v) (host : Host) {indent : Option Float}
    (hindent : ∀ x ∈ indent, x.isFinite = true) :
    (∃ text, Builtin.call "toJSON" h host (v :: (indent.map Value.num).toList) = .gives h host (.str text) ∧
        ∀ g, ∃ w g', Builtin.call "fromJSON" g host [.str text] = .gives g' host w ∧ h.Mirrors g' v w ∧ g.Extends g') ∨
      v.kind ≠ .string ∧ ∃ x ∈ indent, Builtin.indexLimit < Number.truncated x ∧
        Builtin.call "toJSON" h host (v :: (indent.map Value.num).toList) =
          ⟨.error (.because (.builtinFailed "toJSON" "cannot fit 'int' into an index-sized integer")), h, host⟩ := by
  have hsound := h.tree_sound hv
  have hcall := call_toJson h host v hindent
  rcases jsonText_requested h v indent with htext | ⟨hkind, x, hx, hbeyond, hfails⟩
  · refine .inl ⟨h.json v (layoutOf indent), ?_, fun g => ?_⟩
    · rw [hcall, htext]
    · obtain ⟨w, g', hplain, hmirrors, hextends⟩ := Heap.restores_unfold hsound g
      exact ⟨w, g', call_fromJson (hsound.document (layoutOf indent)) hplain, hmirrors, hextends⟩
  · refine .inr ⟨hkind, x, hx, hbeyond, ?_⟩
    rw [hcall, hfails]
    rfl

def sharingHeap : Heap where
  arrays := #[#[.obj 0, .num 1.5, .num (-0)], #[.num 1e22, .null, .bool true]]
  objects := #[[("", .arr 1), ("a\"b\n", .arr 1), ("é", .str "\\\t\x01😀")]]

theorem holds_sharingHeap (hw : sharingHeap.Holds v w) :
    (v = .arr 0 ∧ w ∈ [.obj 0, .num 1.5, .num (-0)]) ∨ (v = .arr 1 ∧ w ∈ [.num 1e22, .null, .bool true]) ∨
      (v = .obj 0 ∧ w ∈ [.arr 1, .arr 1, .str "\\\t\x01😀"]) := by
  match v, hw with
  | .arr 0, hw => exact .inl ⟨rfl, hw⟩
  | .arr 1, hw => exact .inr (.inl ⟨rfl, hw⟩)
  | .obj 0, hw => exact .inr (.inr ⟨rfl, hw⟩)
  | .arr (id + 2), hw => exact absurd hw List.not_mem_nil
  | .obj (id + 1), hw => exact absurd hw List.not_mem_nil

def sharingRank : Value → Nat
  | .arr 0 => 3
  | .obj 0 => 2
  | .arr 1 => 1
  | _ => 0

theorem regular_sharingHeap : sharingHeap.Regular (.arr 0) where
  acyclic := by
    refine Heap.acyclic_of_rank sharingRank (fun v w hw => ?_) _
    rcases holds_sharingHeap hw with ⟨rfl, hpart⟩ | ⟨rfl, hpart⟩ | ⟨rfl, hpart⟩
    all_goals
      simp only [List.mem_cons, List.not_mem_nil, or_false] at hpart
      rcases hpart with rfl | rfl | rfl <;> decide
  numbers x hx := by
    have hnumber : x = 1.5 ∨ x = -0 ∨ x = 1e22 := by
      cases hx with
      | tail _ hw =>
        rcases holds_sharingHeap hw with ⟨-, hpart⟩ | ⟨-, hpart⟩ | ⟨-, hpart⟩
        all_goals
          simp only [List.mem_cons, List.not_mem_nil, or_false, Value.num.injEq, reduceCtorEq, false_or] at hpart
        · exact hpart.imp_right .inl
        · exact .inr (.inr hpart)
    rcases hnumber with rfl | rfl | rfl <;> exact ⟨by decide +kernel, fun _ => by decide +kernel⟩
  keys id hid := by
    match id with
    | 0 => decide
    | id + 1 => exact .nil

/-- The text is read back when each level is indented by two blanks. -/
theorem fromJson_toJson_sharing : sharingHeap.Regular (.arr 0) ∧ ∃ text,
    Builtin.call "toJSON" sharingHeap {} [.arr 0, .num 2] = .gives sharingHeap {} (.str text) ∧
      ∀ g, ∃ w g', Builtin.call "fromJSON" g {} [.str text] = .gives g' {} w ∧ sharingHeap.Mirrors g' (.arr 0) w ∧
        g.Extends g' := by
  have hfinite : ∀ x ∈ some (2 : Float), x.isFinite = true := by
    rintro x ⟨⟩
    decide +kernel
  refine ⟨regular_sharingHeap, (fromJson_toJson regular_sharingHeap {} hfinite).resolve_right ?_⟩
  rintro ⟨-, x, ⟨⟩, hbeyond, -⟩
  exact absurd hbeyond (by decide +kernel)

theorem reaches_null {h : Heap} (hw : h.Reaches .null w) : w = .null := by
  induction hw with
  | refl => rfl
  | tail _ hpart ih =>
    subst ih
    exact absurd hpart List.not_mem_nil

theorem regular_null (h : Heap) : h.Regular .null where
  acyclic w hw hcycle := by
    obtain rfl := reaches_null hw
    obtain ⟨u, hpart, -⟩ := Relation.TransGen.head'_iff.1 hcycle
    exact absurd hpart List.not_mem_nil
  numbers x hx := nomatch reaches_null hx
  keys id hid := nomatch reaches_null hid

/-- Where the blanks of a level cannot be counted, not even null is written. -/
theorem toJson_uncountable : Heap.Regular {} .null ∧ (1e300 : Float).isFinite = true ∧
    (Builtin.call "toJSON" {} {} [.null, .num 1e300]).result =
      .error (.because (.builtinFailed "toJSON" "cannot fit 'int' into an index-sized integer")) := by
  have hfinite : (1e300 : Float).isFinite = true := by decide +kernel
  have hmany : Builtin.indexLimit < max 0 (Number.truncated 1e300) := by decide +kernel
  have hindent : ∀ x ∈ some (1e300 : Float), x.isFinite = true := fun x hx => Option.some.inj hx ▸ hfinite
  have htext : ConversionFn.jsonText {} .null (some (max 0 (Number.truncated 1e300))) = .error (.fault .countTooLarge) := by
    rw [jsonText_some {} (v := .null) (by decide), if_pos hmany]
  have hcall := call_toJson {} {} .null hindent
  simp only [Option.map_some, Option.toList_some, htext] at hcall
  exact ⟨regular_null {}, hfinite, congrArg Reached.result hcall⟩

end DeskScript
