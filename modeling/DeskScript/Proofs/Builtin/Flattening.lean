import DeskScript.Proofs.Builtin.Calls
import DeskScript.Proofs.Builtin.Sorting
import DeskScript.Proofs.Value.Lasting

set_option autoImplicit false

/-!
# Flattening

An array is flattened by following paths of indices into the arrays within it, no deeper than so many levels. Its elements
become those at the ends of all these paths, in lexicographic order of the paths. Flattening by one depth and then by
another is flattening by their sum, and nothing but arrays that stand deeper is left to be flattened. Main statement:
`Builtin.flatten_composes`.
-/

namespace DeskScript

namespace Heap

variable {h : Heap} {d : Nat} {vs : List Value} {v : Value}

/-- What stands at a path of indices into some elements and the arrays within them. -/
def elementAt (h : Heap) : List Value → List Nat → Option Value
  | _, [] => none
  | vs, [i] => vs[i]?
  | vs, i :: j :: path =>
    match vs[i]? with
    | some (.arr id) => elementAt h (h.items id).toList (j :: path)
    | _ => none

theorem elementAt_cons {i : Nat} {path : List Nat} (hpath : path ≠ []) :
    h.elementAt vs (i :: path) = some v ↔
      ∃ id, vs[i]? = some (.arr id) ∧ h.elementAt (h.items id).toList path = some v := by
  obtain ⟨j, path, rfl⟩ := List.exists_cons_of_ne_nil hpath
  rw [elementAt]
  split
  · rename_i id harray
    rw [harray]
    exact ⟨fun h => ⟨id, rfl, h⟩, fun ⟨_, heq, h⟩ => by cases heq; exact h⟩
  · rename_i hother
    exact ⟨nofun, fun ⟨id, heq, _⟩ => absurd heq (hother id)⟩

theorem ne_nil_of_elementAt {path : List Nat} (hv : h.elementAt vs path = some v) : path ≠ [] := by
  rintro rfl
  exact absurd hv nofun

/-- Where a path ends that goes no deeper than `d` levels: as deep as it can, or at what is no array. -/
def Ends (d : Nat) (path : List Nat) (v : Value) : Prop :=
  path.length = d + 1 ∨ path.length ≤ d ∧ ∀ id, v ≠ .arr id

structure EndsOf (h : Heap) (d : Nat) (vs : List Value) (placed : List (List Nat × Value)) : Prop where
  complete : ∀ path v, (path, v) ∈ placed ↔ h.elementAt vs path = some v ∧ Ends d path v
  inOrder : placed.Pairwise fun a b => a.1 < b.1

def endsFrom (h : Heap) (deeper : List Value → List (List Nat × Value)) (e : Value × Nat) : List (List Nat × Value) :=
  match e.1 with
  | .arr id => (deeper (h.items id).toList).map fun a => (e.2 :: a.1, a.2)
  | v => [([e.2], v)]

def ends (h : Heap) : Nat → List Value → List (List Nat × Value)
  | 0, vs => vs.zipIdx.map fun e => ([e.2], e.1)
  | d + 1, vs => vs.zipIdx.flatMap (h.endsFrom (ends h d))

theorem mem_endsFrom {deeper : List Value → List (List Nat × Value)} {e : Value × Nat} {a : List Nat × Value} :
    a ∈ h.endsFrom deeper e ↔ ((∀ id, e.1 ≠ .arr id) ∧ a = ([e.2], e.1)) ∨
      ∃ id, e.1 = .arr id ∧ ∃ b ∈ deeper (h.items id).toList, a = (e.2 :: b.1, b.2) := by
  unfold endsFrom
  split
  · rename_i id harray
    rw [List.mem_map]
    constructor
    · rintro ⟨b, hb, rfl⟩
      exact .inr ⟨id, harray, b, hb, rfl⟩
    · rintro (⟨hother, -⟩ | ⟨id', heq, b, hb, rfl⟩)
      · exact absurd harray (hother id)
      · cases harray.symm.trans heq
        exact ⟨b, hb, rfl⟩
  · rename_i hother
    rw [List.mem_singleton]
    constructor
    · rintro rfl
      exact .inl ⟨hother, rfl⟩
    · rintro (⟨-, rfl⟩ | ⟨id, harray, -⟩)
      · rfl
      · exact absurd harray (hother id)

theorem mem_ends_iff (h : Heap) (d : Nat) (vs : List Value) (path : List Nat) (v : Value) :
    (path, v) ∈ h.ends d vs ↔ h.elementAt vs path = some v ∧ Ends d path v := by
  induction d generalizing vs path with
  | zero =>
    rw [ends, List.mem_map]
    constructor
    · rintro ⟨⟨w, i⟩, hw, heq⟩
      cases heq
      exact ⟨List.mem_zipIdx_iff_getElem?.1 hw, .inl rfl⟩
    · rintro ⟨hat, hends⟩
      have hsome := List.length_pos_iff.2 (ne_nil_of_elementAt hat)
      have hone : path.length = 1 := hends.elim id fun hshort => by omega
      obtain ⟨i, rfl⟩ := List.length_eq_one_iff.1 hone
      exact ⟨(v, i), List.mem_zipIdx_iff_getElem?.2 hat, rfl⟩
  | succ d ih =>
    rw [ends, List.mem_flatMap]
    constructor
    · rintro ⟨⟨w, i⟩, hw, hfrom⟩
      have hat := List.mem_zipIdx_iff_getElem?.1 hw
      obtain ⟨hother, heq⟩ | ⟨id, rfl, ⟨rest, v⟩, hrest, heq⟩ := mem_endsFrom.1 hfrom
      · cases heq
        exact ⟨hat, .inr ⟨Nat.succ_le_succ (Nat.zero_le d), hother⟩⟩
      · cases heq
        obtain ⟨hrest, hends⟩ := (ih _ _).1 hrest
        refine ⟨(elementAt_cons (ne_nil_of_elementAt hrest)).2 ⟨id, hat, hrest⟩, ?_⟩
        exact hends.imp (congrArg Nat.succ) (And.imp_left Nat.succ_le_succ)
    · rintro ⟨hat, hends⟩
      obtain ⟨i, rest, rfl⟩ := List.exists_cons_of_ne_nil (ne_nil_of_elementAt hat)
      by_cases hlast : rest = []
      · subst hlast
        have hother : ∀ id, v ≠ .arr id := hends.elim (fun hdeep => by simp at hdeep) And.right
        exact ⟨(v, i), List.mem_zipIdx_iff_getElem?.2 hat, mem_endsFrom.2 (.inl ⟨hother, rfl⟩)⟩
      · obtain ⟨id, hid, hrest⟩ := (elementAt_cons hlast).1 hat
        have hends : Ends d rest v := hends.imp Nat.succ.inj (And.imp_left Nat.le_of_succ_le_succ)
        exact ⟨(.arr id, i), List.mem_zipIdx_iff_getElem?.2 hid,
          mem_endsFrom.2 (.inr ⟨id, rfl, (rest, v), (ih _ _).2 ⟨hrest, hends⟩, rfl⟩)⟩

theorem ends_inOrder (h : Heap) (d : Nat) (vs : List Value) : (h.ends d vs).Pairwise fun a b => a.1 < b.1 := by
  induction d generalizing vs with
  | zero =>
    rw [ends, List.pairwise_map]
    exact (places_increase vs).imp fun hlt => List.cons_lt_cons_iff.2 (.inl hlt)
  | succ d ih =>
    have hhead {e : Value × Nat} {a : List Nat × Value} (ha : a ∈ h.endsFrom (h.ends d) e) : ∃ rest, a.1 = e.2 :: rest := by
      obtain ⟨-, rfl⟩ | ⟨id, -, b, -, rfl⟩ := mem_endsFrom.1 ha
      · exact ⟨[], rfl⟩
      · exact ⟨b.1, rfl⟩
    rw [ends, List.pairwise_flatMap]
    constructor
    · intro e _
      unfold endsFrom
      split
      · rw [List.pairwise_map]
        exact (ih _).imp fun hlt => List.cons_lt_cons_iff.2 (.inr ⟨rfl, hlt⟩)
      · exact List.pairwise_singleton _ _
    · refine (places_increase vs).imp fun {e e'} hlt a ha b hb => ?_
      obtain ⟨rest, ha⟩ := hhead ha
      obtain ⟨rest', hb⟩ := hhead hb
      rw [ha, hb]
      exact List.cons_lt_cons_iff.2 (.inl hlt)

theorem endsOf_ends (h : Heap) (d : Nat) (vs : List Value) : h.EndsOf d vs (h.ends d vs) :=
  ⟨mem_ends_iff h d vs, ends_inOrder h d vs⟩

/-- Every array in some elements stands at most `d` levels deep. -/
def NestedAtMost (h : Heap) (d : Nat) (vs : List Value) : Prop :=
  ∀ path id, h.elementAt vs path = some (.arr id) → path.length ≤ d

theorem nestedAtMost_zero_iff : h.NestedAtMost 0 vs ↔ ∀ id, .arr id ∉ vs := by
  constructor
  · intro hnested id hmem
    obtain ⟨i, hat⟩ := List.mem_iff_getElem?.1 hmem
    exact absurd (hnested [i] id hat) (Nat.not_succ_le_zero 0)
  · intro hnone path id hat
    obtain ⟨i, rest, rfl⟩ := List.exists_cons_of_ne_nil (ne_nil_of_elementAt hat)
    by_cases hlast : rest = []
    · subst hlast
      exact absurd (List.mem_of_getElem? hat) (hnone id)
    · obtain ⟨other, hother, -⟩ := (elementAt_cons hlast).1 hat
      exact absurd (List.mem_of_getElem? hother) (hnone other)

theorem nestedAtMost_succ_iff :
    h.NestedAtMost (d + 1) vs ↔ ∀ id, .arr id ∈ vs → h.NestedAtMost d (h.items id).toList := by
  constructor
  · intro hnested id hmem path inner hat
    obtain ⟨i, hi⟩ := List.mem_iff_getElem?.1 hmem
    exact Nat.le_of_succ_le_succ (hnested (i :: path) inner ((elementAt_cons (ne_nil_of_elementAt hat)).2 ⟨id, hi, hat⟩))
  · intro hparts path inner hat
    obtain ⟨i, rest, rfl⟩ := List.exists_cons_of_ne_nil (ne_nil_of_elementAt hat)
    by_cases hlast : rest = []
    · subst hlast
      exact Nat.succ_le_succ (Nat.zero_le d)
    · obtain ⟨id, hid, hrest⟩ := (elementAt_cons hlast).1 hat
      exact Nat.succ_le_succ (hparts id (List.mem_of_getElem? hid) rest inner hrest)

/-- Without cycles no array stands deeper than there are collections. -/
theorem nestedAtMost_of_acyclic {above : List Ref} (hpath : h.Path above v) (hacyclic : h.Acyclic v) {id : Nat}
    (hid : v = .arr id) : h.NestedAtMost (h.size - above.length) (h.items id).toList := by
  refine hpath.induction (motive := fun above v => h.Acyclic v → ∀ id, v = .arr id →
    h.NestedAtMost (h.size - above.length) (h.items id).toList) ?constant ?collection hacyclic id hid
  case constant =>
    rintro above v hconstant - id rfl
    exact absurd rfl (hconstant (.arr id))
  case collection =>
    intro above r hpath hparts hacyclic id hid
    have hdeeper (inner : Nat) (hinner : .arr inner ∈ (h.items id).toList) :
        above.length + 1 ≤ h.size ∧ h.NestedAtMost (h.size - (above.length + 1)) (h.items inner).toList := by
      have hholds : h.Holds r.value (.arr inner) := hid ▸ hinner
      exact ⟨(hpath.part hacyclic hholds).length_le,
        hparts (hpath.not_mem hacyclic) _ hholds (hacyclic.part hholds) inner rfl⟩
    by_cases hroom : above.length + 1 ≤ h.size
    · have hsize : h.size - above.length = h.size - (above.length + 1) + 1 := by omega
      rw [hsize, nestedAtMost_succ_iff]
      exact fun inner hinner => (hdeeper inner hinner).2
    · have hsize : h.size - above.length = 0 := by omega
      rw [hsize, nestedAtMost_zero_iff]
      exact fun inner hinner => hroom (hdeeper inner hinner).1

end Heap

namespace ArrayFn

open Heap

variable {h g : Heap} {m n d : Nat} {vs : List Value}

theorem flattened_array (id : Nat) : flattened h (d + 1) [.arr id] = flattened h d (h.items id).toList := by
  simp [flattened]

theorem flattened_other {v : Value} (hv : ∀ id, v ≠ .arr id) : flattened h d [v] = [v] := by
  cases d with
  | zero => rfl
  | succ d =>
    rw [flattened, List.flatMap_singleton]
    split
    · rename_i id
      exact absurd rfl (hv id)
    · rfl

theorem flattened_flatMap (f : Value → List Value) : flattened h d (vs.flatMap f) = vs.flatMap fun v => flattened h d (f v) := by
  cases d with
  | zero => rfl
  | succ d =>
    simp only [flattened]
    exact List.flatMap_assoc

theorem flattened_each : flattened h d vs = vs.flatMap fun v => flattened h d [v] := by
  have heach : flattened h d (vs.flatMap fun v => [v]) = vs.flatMap fun v => flattened h d [v] :=
    flattened_flatMap fun v => [v]
  rwa [List.flatMap_singleton'] at heach

theorem mem_flattened_succ {w : Value} : w ∈ flattened h (d + 1) vs ↔
    ((∀ id, w ≠ .arr id) ∧ w ∈ vs) ∨ ∃ id, .arr id ∈ vs ∧ w ∈ flattened h d (h.items id).toList := by
  rw [flattened_each, List.mem_flatMap]
  constructor
  · rintro ⟨v, hv, hw⟩
    by_cases harray : ∃ id, v = .arr id
    · obtain ⟨id, rfl⟩ := harray
      rw [flattened_array] at hw
      exact .inr ⟨id, hv, hw⟩
    · rw [flattened_other fun id hid => harray ⟨id, hid⟩, List.mem_singleton] at hw
      subst hw
      exact .inl ⟨fun id hid => harray ⟨id, hid⟩, hv⟩
  · rintro (⟨hother, hw⟩ | ⟨id, hid, hw⟩)
    · refine ⟨w, hw, ?_⟩
      rw [flattened_other hother]
      exact List.mem_singleton_self w
    · refine ⟨.arr id, hid, ?_⟩
      rwa [flattened_array]

/-- **Composition.** What is left after some levels is flattened by the levels that are left. -/
theorem flattened_flattened (h : Heap) (m n : Nat) (vs : List Value) :
    flattened h n (flattened h m vs) = flattened h (m + n) vs := by
  induction m generalizing vs with
  | zero => rw [Nat.zero_add, flattened]
  | succ m ih =>
    rw [flattened_each (d := m + 1), flattened_flatMap, flattened_each (d := m + 1 + n)]
    refine List.flatMap_congr fun v _ => ?_
    by_cases harray : ∃ id, v = .arr id
    · obtain ⟨id, rfl⟩ := harray
      rw [flattened_array, ih, Nat.add_right_comm, flattened_array]
    · have hother : ∀ id, v ≠ .arr id := fun id hid => harray ⟨id, hid⟩
      rw [flattened_other hother, flattened_other hother, flattened_other hother]

/-- The elements of the flattened array are the ends of the paths. -/
theorem ends_values (h : Heap) (d : Nat) (vs : List Value) : (h.ends d vs).map (·.2) = flattened h d vs := by
  induction d generalizing vs with
  | zero =>
    rw [ends, List.map_map, flattened]
    exact List.zipIdx_map_fst 0 vs
  | succ d ih =>
    have hfrom (e : Value × Nat) : (h.endsFrom (h.ends d) e).map (·.2) = flattened h (d + 1) [e.1] := by
      unfold endsFrom
      split
      · rename_i id harray
        rw [harray, flattened_array, ← ih, List.map_map]
        rfl
      · rename_i hother
        rw [flattened_other hother]
        rfl
    calc (h.ends (d + 1) vs).map (·.2) = vs.zipIdx.flatMap fun e => flattened h (d + 1) [e.1] := by
          rw [ends, List.map_flatMap]
          exact List.flatMap_congr fun e _ => hfrom e
      _ = (vs.zipIdx.map (·.1)).flatMap fun v => flattened h (d + 1) [v] := by rw [List.flatMap_map]
      _ = flattened h (d + 1) vs := by rw [List.zipIdx_map_fst, ← flattened_each]

/-- No array is left exactly if none stands deeper than the levels that are flattened. -/
theorem no_array_flattened_iff : (∀ id, .arr id ∉ flattened h d vs) ↔ h.NestedAtMost d vs := by
  induction d generalizing vs with
  | zero => rw [flattened, nestedAtMost_zero_iff]
  | succ d ih =>
    rw [nestedAtMost_succ_iff]
    simp only [mem_flattened_succ, ← ih]
    constructor
    · exact fun hnone id hid inner hinner => hnone inner (.inr ⟨id, hid, hinner⟩)
    · rintro hnone inner (⟨hother, -⟩ | ⟨id, hid, hinner⟩)
      · exact hother inner rfl
      · exact hnone id hid inner hinner

/-- A new array changes nothing for elements whose collections are all on the heap. -/
theorem flattened_extends (hextends : h.Extends g) (hlive : ∀ v ∈ vs, h.Live v) :
    (∀ v ∈ flattened h d vs, h.Live v) ∧ flattened g d vs = flattened h d vs := by
  induction d generalizing vs with
  | zero => exact ⟨hlive, rfl⟩
  | succ d ih =>
    have hparts {id : Nat} (hid : .arr id ∈ vs) : ∀ w ∈ (h.items id).toList, h.Live w := fun w hw =>
      Live.part (v := .arr id) (hlive _ hid) hw
    refine ⟨fun w hw => ?_, ?_⟩
    · rcases mem_flattened_succ.1 hw with ⟨-, hw⟩ | ⟨id, hid, hw⟩
      · exact hlive w hw
      · exact (ih (hparts hid)).1 w hw
    · rw [flattened_each (h := g), flattened_each (h := h)]
      refine List.flatMap_congr fun v hv => ?_
      by_cases harray : ∃ id, v = .arr id
      · obtain ⟨id, rfl⟩ := harray
        have hsame : (g.items id).toList = (h.items id).toList := (hlive _ hv).parts_eq hextends
        rw [flattened_array, flattened_array, hsame]
        exact (ih (hparts hv)).2
      · have hother : ∀ id, v ≠ .arr id := fun id hid => harray ⟨id, hid⟩
        rw [flattened_other hother, flattened_other hother]

end ArrayFn

namespace Builtin

open Heap ArrayFn

variable {h : Heap} {host : Host}

theorem call_flatten {x : Float} (hx : x.isFinite = true) (h : Heap) (host : Host) (id : Nat) :
    call "flatten" h host [.arr id, .num x] =
      .makes h host (flattened h (Number.truncated x).toNat (h.items id).toList) := by
  refine call_gives (find?_array (f := .flatten) (by decide)) rfl ?_
  have hdepth : intArgument "flatten" x = .ok (Number.truncated x) := if_pos hx
  change reached h host (intArgument "flatten" x >>= fun depth =>
    Outcome.array h (flattened h depth.toNat (h.items id).toList).toArray) = _
  rw [hdepth]
  rfl

/-- **Flattening.** To flatten an array by one depth and the new array by another is to flatten it by their sum, for all
natural numbers and for all finite doubles that stand for them. The elements of a flattened array are the ends of all
paths of indices in the order of the paths, each once, and no array is among them exactly if none stands deeper than the
levels that are flattened. Without cycles there is such a depth. -/
theorem flatten_composes (h : Heap) (host : Host) (id : Nat) (hlive : h.Live (.arr id)) :
    (∀ x : Float, x.isFinite = true → call "flatten" h host [.arr id, .num x] =
      .makes h host (flattened h (Number.truncated x).toNat (h.items id).toList)) ∧
    (∀ (m n : Nat) (once : List Value), flattened h m (h.items id).toList = once →
      flattened (h.plus once) n once = flattened h (m + n) (h.items id).toList ∧
      ∀ y : Float, y.isFinite = true → (Number.truncated y).toNat = n →
        call "flatten" (h.plus once) host [.arr h.arrays.size, .num y] =
          .makes (h.plus once) host (flattened h (m + n) (h.items id).toList)) ∧
    (∀ d : Nat, ∃ placed, flattened h d (h.items id).toList = placed.map (·.2) ∧
      h.EndsOf d (h.items id).toList placed) ∧
    (∀ d : Nat, (∀ inner, .arr inner ∉ flattened h d (h.items id).toList) ↔ h.NestedAtMost d (h.items id).toList) ∧
    (h.Acyclic (.arr id) → ∃ d, h.NestedAtMost d (h.items id).toList) := by
  have hparts : ∀ v ∈ (h.items id).toList, h.Live v := fun v hv => hlive.part hv
  have hcomposed {m n : Nat} {once : List Value} (honce : flattened h m (h.items id).toList = once) :
      flattened (h.plus once) n once = flattened h (m + n) (h.items id).toList := by
    obtain ⟨hkept, -⟩ := flattened_extends (d := m) (extends_plus h once) hparts
    rw [honce] at hkept
    rw [(flattened_extends (extends_plus h once) hkept).2, ← honce, flattened_flattened]
  refine ⟨fun x hx => call_flatten hx h host id, fun m n once honce => ⟨hcomposed honce, fun y hy hn => ?_⟩, fun d => ?_,
    fun d => no_array_flattened_iff, fun hacyclic => ?_⟩
  · rw [call_flatten hy, items_plus, hn, hcomposed honce]
  · exact ⟨h.ends d _, (ends_values h d _).symm, endsOf_ends h d _⟩
  · exact ⟨h.size, nestedAtMost_of_acyclic .nil hacyclic rfl⟩

def sharedLevels : Heap where
  arrays := #[#[.num 1, .arr 1, .arr 2, .arr 1], #[.num 2, .arr 2], #[.str "x"]]

theorem live_sharedLevels : sharedLevels.Live (.arr 0) := by
  have hrefs : ∀ i < 3, (.arr i : Ref) ∈ sharedLevels.refs := by decide
  refine live_of_closed (fun r _ c hc => ?_) fun r hr => ?_
  · have hitems : c.value ∈ [.num 1, .arr 1, .arr 2, .arr 1] ∨ c.value ∈ [.num 2, .arr 2] ∨ c.value ∈ [.str "x"] := by
      match r, hc with
      | .arr 0, hc => exact .inl hc
      | .arr 1, hc => exact .inr (.inl hc)
      | .arr 2, hc => exact .inr (.inr hc)
      | .arr (i + 3), hc => exact absurd hc List.not_mem_nil
      | .obj i, hc => exact absurd hc List.not_mem_nil
    cases c with
    | arr id =>
      simp only [Ref.value, List.mem_cons, Value.arr.injEq, List.not_mem_nil, or_false, reduceCtorEq, false_or] at hitems
      exact hrefs id (by omega)
    | obj id => simp [Ref.value] at hitems
  · cases r <;> cases hr
    exact hrefs 0 (by decide)

/-- One level and another one leave no array, and the shared elements come once for each path to them. -/
theorem flatten_composes_shared : sharedLevels.Live (.arr 0) ∧
    flattened sharedLevels 1 (sharedLevels.items 0).toList = [.num 1, .num 2, .arr 2, .str "x", .num 2, .arr 2] ∧
    call "flatten" (sharedLevels.plus [.num 1, .num 2, .arr 2, .str "x", .num 2, .arr 2]) {} [.arr 3, .num 1] =
      .makes (sharedLevels.plus [.num 1, .num 2, .arr 2, .str "x", .num 2, .arr 2]) {}
        [.num 1, .num 2, .str "x", .str "x", .num 2, .str "x"] ∧
    sharedLevels.NestedAtMost 2 (sharedLevels.items 0).toList := by
  have honce : flattened sharedLevels 1 (sharedLevels.items 0).toList =
    [.num 1, .num 2, .arr 2, .str "x", .num 2, .arr 2] := rfl
  obtain ⟨-, hcomposed, -, hnone, -⟩ := flatten_composes sharedLevels {} 0 live_sharedLevels
  refine ⟨live_sharedLevels, honce, (hcomposed 1 1 _ honce).2 1 (by decide +kernel) (by decide +kernel), (hnone 2).1 ?_⟩
  intro inner hinner
  have hleft : Value.arr inner ∈ [.num 1, .num 2, .str "x", .str "x", .num 2, .str "x"] := hinner
  simp at hleft

end Builtin

end DeskScript
