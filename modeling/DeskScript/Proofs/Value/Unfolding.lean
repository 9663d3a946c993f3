import DeskScript.Number.Read
import DeskScript.Value.Tree
import Mathlib.Logic.Relation

set_option autoImplicit false

/-!
# The unfolding of a value without cycles

Where no collection holds itself, however indirectly, a path into a value enters each collection once. So the path is no
longer than there are collections, the unfolding ends by itself and no place in it is marked as circular. Main statement:
`Heap.tree_sound`.
-/

namespace DeskScript

/-- A finite double that comes back from its text. For an integer this is a theorem; of other doubles it is supposed. -/
structure Number.Legible (x : Float) : Prop where
  finite : x.isFinite = true
  readable : isIntegral x = false → decimal? takeDigits (plainText x).toList = some x

/-- A tree of a finite value: no place in it is circular, its numbers are as `P` says and its entries have distinct
keys. -/
inductive Tree.Sound (P : Float → Prop) : Tree → Prop where
  | null : Sound P .null
  | bool (b : Bool) : Sound P (.bool b)
  | num {x : Float} (h : P x) : Sound P (.num x)
  | str (s : String) : Sound P (.str s)
  | list {items : List Tree} (h : ∀ t ∈ items, t.Sound P) : Sound P (.list items)
  | dict {entries : List (String × Tree)} (hkeys : (entries.map (·.1)).Nodup) (h : ∀ e ∈ entries, e.2.Sound P) :
      Sound P (.dict entries)

def Ref.value : Ref → Value
  | .arr id => .arr id
  | .obj id => .obj id

namespace Heap

variable {h : Heap} {v w : Value}

def parts (h : Heap) : Value → List Value
  | .arr id => (h.items id).toList
  | .obj id => (h.fields id).values
  | _ => []

def Holds (h : Heap) (v w : Value) : Prop := w ∈ h.parts v

def Reaches (h : Heap) : Value → Value → Prop := Relation.ReflTransGen h.Holds

def Acyclic (h : Heap) (v : Value) : Prop := ∀ w, h.Reaches v w → ¬ Relation.TransGen h.Holds w w

theorem Acyclic.part (hacyclic : h.Acyclic v) (hw : h.Holds v w) : h.Acyclic w := fun u hu =>
  hacyclic u (.head hw hu)

theorem acyclic_of_parts (hparts : ∀ w, h.Holds v w → h.Acyclic w) : h.Acyclic v := by
  intro u hu hcycle
  obtain rfl | ⟨w, hw, hreaches⟩ := Relation.ReflTransGen.cases_head hu
  · obtain ⟨w, hw, hback⟩ := Relation.TransGen.head'_iff.1 hcycle
    exact hparts w hw _ hback hcycle
  · exact hparts w hw u hreaches hcycle

/-- A value is without cycles if each collection has a rank above those of its parts. -/
theorem acyclic_of_rank (rank : Value → Nat) (hrank : ∀ v w, h.Holds v w → rank w < rank v) (v : Value) :
    h.Acyclic v := by
  have hbelow {v w : Value} (hvw : Relation.TransGen h.Holds v w) : rank w < rank v := by
    induction hvw with
    | single hvw => exact hrank _ _ hvw
    | tail _ hvw ih => exact Nat.lt_trans (hrank _ _ hvw) ih
  exact fun w _ hw => Nat.lt_irrefl _ (hbelow hw)

def refs (h : Heap) : List Ref :=
  (List.range h.arrays.size).map .arr ++ (List.range h.objects.size).map .obj

theorem refs_length (h : Heap) : h.refs.length = h.size := by simp [refs, size]

/-- Only a collection of the heap has something in it. -/
theorem mem_refs_of_holds {r : Ref} (hw : h.Holds r.value w) : r ∈ h.refs := by
  unfold refs
  cases r with
  | arr id =>
    have hlive : id < h.arrays.size := by
      refine Nat.lt_of_not_le fun hbeyond => ?_
      change w ∈ (h.arrays.getD id #[]).toList at hw
      rw [Array.getD_eq_getD_getElem?, Array.getElem?_eq_none hbeyond] at hw
      exact absurd hw List.not_mem_nil
    simp [hlive]
  | obj id =>
    have hlive : id < h.objects.size := by
      refine Nat.lt_of_not_le fun hbeyond => ?_
      change w ∈ Dict.values (h.objects.getD id []) at hw
      rw [Array.getD_eq_getD_getElem?, Array.getElem?_eq_none hbeyond] at hw
      exact absurd hw List.not_mem_nil
    simp [hlive]

structure Path (h : Heap) (above : List Ref) (v : Value) : Prop where
  distinct : above.Nodup
  live : ∀ r ∈ above, r ∈ h.refs
  leads : ∀ r ∈ above, Relation.TransGen h.Holds r.value v

theorem Path.nil : Path h [] v := ⟨.nil, nofun, nofun⟩

theorem Path.length_le {above : List Ref} (hpath : h.Path above v) : above.length ≤ h.size := by
  rw [← refs_length]
  exact hpath.distinct.length_le_of_subset hpath.live

theorem Path.budget {above : List Ref} (hpath : h.Path above v) :
    h.size + 1 - above.length = h.size - above.length + 1 := Nat.sub_add_comm hpath.length_le

theorem budget_cons (h : Heap) (r : Ref) (above : List Ref) :
    h.size + 1 - (r :: above).length = h.size - above.length := Nat.add_sub_add_right _ 1 _

theorem Path.not_mem {above : List Ref} {r : Ref} (hpath : h.Path above r.value) (hacyclic : h.Acyclic r.value) :
    r ∉ above := fun hr => hacyclic r.value .refl (hpath.leads r hr)

/-- The way goes on into a collection that is not above itself. -/
theorem Path.enter {above : List Ref} {r : Ref} (hpath : h.Path above r.value) (hnew : r ∉ above)
    (hw : h.Holds r.value w) : h.Path (r :: above) w where
  distinct := List.nodup_cons.2 ⟨hnew, hpath.distinct⟩
  live := List.forall_mem_cons.2 ⟨mem_refs_of_holds hw, hpath.live⟩
  leads := List.forall_mem_cons.2 ⟨.single hw, fun r hr => (hpath.leads r hr).tail hw⟩

theorem Path.part {above : List Ref} {r : Ref} (hpath : h.Path above r.value) (hacyclic : h.Acyclic r.value)
    (hw : h.Holds r.value w) : h.Path (r :: above) w := hpath.enter (hpath.not_mem hacyclic) hw

/-- What holds of a collection as soon as it holds of the parts that the way leads on to. The way does not go on for ever:
each step leaves one collection less that is not on it. -/
theorem Path.induction {motive : List Ref → Value → Prop}
    (constant : ∀ above v, (∀ r : Ref, v ≠ r.value) → motive above v)
    (collection : ∀ above r, h.Path above r.value → (r ∉ above → ∀ w, h.Holds r.value w → motive (r :: above) w) →
      motive above r.value)
    {above : List Ref} {v : Value} (hpath : h.Path above v) : motive above v := by
  generalize hleft : h.size - above.length = left
  induction left using Nat.strongRecOn generalizing above v with
  | _ left ih =>
    by_cases hv : ∃ r : Ref, v = r.value
    · obtain ⟨r, rfl⟩ := hv
      apply collection above r hpath
      intro hnew w hw
      have hbelow := hpath.enter hnew hw
      have hlength := hbelow.length_le
      rw [List.length_cons] at hlength
      refine ih (h.size - (above.length + 1)) ?_ hbelow rfl
      omega
    · exact constant above v fun r hr => hv ⟨r, hr⟩

/-- A value without cycles. Its objects are dictionaries, with distinct keys. -/
structure Treelike (h : Heap) (v : Value) : Prop where
  acyclic : h.Acyclic v
  keys : ∀ id, h.Reaches v (.obj id) → (h.fields id).keys.Nodup

theorem Treelike.part (hv : h.Treelike v) (hw : h.Holds v w) : h.Treelike w where
  acyclic := hv.acyclic.part hw
  keys id hid := hv.keys id (.head hw hid)

/-- What holds of a value without cycles as soon as it holds of its parts. -/
theorem Treelike.induction {motive : Value → Prop}
    (step : ∀ v, h.Treelike v → (∀ w, h.Holds v w → motive w) → motive v) (hv : h.Treelike v) : motive v := by
  refine (Path.nil (h := h) (v := v)).induction (motive := fun _ v => h.Treelike v → motive v) ?constant ?collection hv
  case constant =>
    intro above v hconstant hv
    apply step v hv
    intro w hw
    cases v with
    | null | bool _ | num _ | str _ => exact absurd hw List.not_mem_nil
    | arr id => exact absurd rfl (hconstant (.arr id))
    | obj id => exact absurd rfl (hconstant (.obj id))
  case collection =>
    intro above r hpath hparts hr
    apply step r.value hr
    intro w hw
    exact hparts (hpath.not_mem hr.acyclic) w hw (hr.part hw)

/-- A value without cycles. The numbers in it are legible and its objects are dictionaries, with distinct keys. -/
structure Regular (h : Heap) (v : Value) : Prop where
  acyclic : h.Acyclic v
  numbers : ∀ x, h.Reaches v (.num x) → Number.Legible x
  keys : ∀ id, h.Reaches v (.obj id) → (h.fields id).keys.Nodup

theorem Regular.treelike (hv : h.Regular v) : h.Treelike v := ⟨hv.acyclic, hv.keys⟩

theorem unfold_sound {P : Float → Prop} {fuel : Nat} {above : List Ref} {v : Value} (hv : h.Treelike v)
    (hnumbers : ∀ x, h.Reaches v (.num x) → P x) (hpath : h.Path above v) (hfuel : h.size < fuel + above.length) :
    (h.unfold fuel above v).Sound P := by
  induction fuel generalizing above v with
  -- The references above are distinct, so there are no more of them than the heap has objects.
  | zero =>
    have hlength := hpath.length_le
    omega
  | succ fuel ih =>
    have hpart {r : Ref} (hv : h.Treelike r.value) (hnumbers : ∀ x, h.Reaches r.value (.num x) → P x)
        (hpath : h.Path above r.value) {w : Value} (hw : h.Holds r.value w) :
        (h.unfold fuel (r :: above) w).Sound P := by
      refine ih (hv.part hw) (fun x hx => hnumbers x (.head hw hx)) (hpath.part hv.acyclic hw) ?_
      rw [List.length_cons]
      omega
    have hnew {r : Ref} (hv : h.Treelike r.value) (hpath : h.Path above r.value) : above.contains r = false := by
      rw [List.contains_eq_mem, decide_eq_false (hpath.not_mem hv.acyclic)]
    cases v with
    | null => exact .null
    | bool b => exact .bool b
    | num x => exact .num (hnumbers x .refl)
    | str s => exact .str s
    | arr id =>
      rw [unfold, hnew (r := .arr id) hv hpath, if_neg Bool.false_ne_true]
      refine .list fun t ht => ?_
      obtain ⟨w, hw, rfl⟩ := List.mem_map.1 ht
      exact hpart (r := .arr id) hv hnumbers hpath hw
    | obj id =>
      rw [unfold, hnew (r := .obj id) hv hpath, if_neg Bool.false_ne_true]
      refine .dict ?_ fun e he => ?_
      · rw [List.map_map]
        exact hv.keys id .refl
      · obtain ⟨⟨k, w⟩, hw, rfl⟩ := List.mem_map.1 he
        exact hpart (r := .obj id) hv hnumbers hpath (List.mem_map.2 ⟨_, hw, rfl⟩)

/-- The tree of a value without cycles has no circular place. -/
theorem Treelike.sound (hv : h.Treelike v) : (h.tree v).Sound fun _ => True :=
  unfold_sound hv (fun _ _ => trivial) .nil (Nat.lt_succ_self h.size)

/-- Where the numbers of a value are legible, so are those of its tree. -/
theorem tree_sound (hv : h.Regular v) : (h.tree v).Sound Number.Legible :=
  unfold_sound hv.treelike hv.numbers .nil (Nat.lt_succ_self h.size)

end Heap

end DeskScript
