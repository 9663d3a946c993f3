import DeskScript.Proofs.Value.Sharing
import DeskScript.Proofs.Value.Wrapping

set_option autoImplicit false

/-!
# Values on a growing heap

A new collection gets a number of its own, so that a value whose collections are all on the heap is not changed by it. The
value has the same parts as before, is shown as the same text and is equal to the same values. Main statements:
`Heap.Live.display_eq`, `Heap.Live.equal_eq`.
-/

namespace DeskScript

namespace Heap

variable {h g : Heap} {v w a b : Value}

def Live (h : Heap) (v : Value) : Prop := ∀ r : Ref, h.Reaches v r.value → r ∈ h.refs

theorem Live.part (hv : h.Live v) (hw : h.Holds v w) : h.Live w := fun r hr => hv r (.head hw hr)

theorem Extends.size (hextends : h.Extends g) : h.size ≤ g.size := Nat.add_le_add hextends.arrays hextends.objects

theorem Live.parts_eq (hv : h.Live v) (hextends : h.Extends g) : g.parts v = h.parts v := by
  cases v with
  | null | bool _ | num _ | str _ => rfl
  | arr id => exact (hextends.collection (r := .arr id) (hv _ .refl)).2.1
  | obj id => exact (hextends.collection (r := .obj id) (hv _ .refl)).2.1

theorem Live.holds_iff (hv : h.Live v) (hextends : h.Extends g) : g.Holds v w ↔ h.Holds v w := by
  rw [Holds, hv.parts_eq hextends, Holds]

/-- Where no collection has a part that is not on the heap, all values are live whose own collection is there. -/
theorem live_of_closed (hclosed : ∀ r ∈ h.refs, ∀ c : Ref, h.Holds r.value c.value → c ∈ h.refs)
    (hv : ∀ r : Ref, v = r.value → r ∈ h.refs) : h.Live v := by
  intro c hc
  obtain rfl | ⟨w, hreaches, hw⟩ := Relation.ReflTransGen.cases_tail hc
  · exact hv c rfl
  · cases w with
    | null | bool _ | num _ | str _ => cases hw
    | arr id => exact hclosed (.arr id) (mem_refs_of_holds hw) c hw
    | obj id => exact hclosed (.obj id) (mem_refs_of_holds hw) c hw

theorem extends_plus (h : Heap) (items : List Value) : h.Extends (h.plus items) := extends_newArray h items.toArray

/-- Where a path leads the unfolding is the same, since what is left of the fuel is enough on either heap. -/
theorem unfold_extends {above : List Ref} (hextends : h.Extends g) (hpath : h.Path above v) (hv : h.Live v) :
    g.unfold (g.size + 1 - above.length) above v = h.unfold (h.size + 1 - above.length) above v := by
  refine hpath.induction (motive := fun above v => h.Live v →
    g.unfold (g.size + 1 - above.length) above v = h.unfold (h.size + 1 - above.length) above v) ?constant ?collection hv
  case constant =>
    intro above v hconstant _
    cases v with
    | null | bool _ | num _ | str _ => rw [unfold, unfold]
    | arr id => exact absurd rfl (hconstant (.arr id))
    | obj id => exact absurd rfl (hconstant (.obj id))
  case collection =>
    intro above r hpath hparts hr
    rw [hpath.budget, Nat.sub_add_comm (Nat.le_trans hpath.length_le hextends.size)]
    simp only [budget_cons] at hparts
    have hlive := hr r .refl
    cases r with
    | arr id =>
      rw [Ref.value, unfold, unfold, hextends.items id (arr_mem_refs.1 hlive)]
      split
      · rfl
      · rename_i hnew
        refine congrArg Tree.list (List.map_congr_left fun w hw => ?_)
        exact hparts (mt List.contains_iff_mem.2 hnew) w hw (hr.part hw)
    | obj id =>
      rw [Ref.value, unfold, unfold, hextends.fields id (obj_mem_refs.1 hlive)]
      split
      · rfl
      · rename_i hnew
        refine congrArg Tree.dict (List.map_congr_left fun e he => ?_)
        have hw : h.Holds (.obj id) e.2 := List.mem_map_of_mem he
        exact congrArg (e.1, ·) (hparts (mt List.contains_iff_mem.2 hnew) e.2 hw (hr.part hw))

theorem Live.display_eq (hv : h.Live v) (hextends : h.Extends g) : g.display v = h.display v := by
  have htree : g.tree v = h.tree v := unfold_extends hextends .nil hv
  cases v with
  | null | bool _ | num _ | str _ => rfl
  | arr _ | obj _ => exact congrArg (Tree.json none 0) htree

theorem Treelike.extends (hv : h.Treelike v) (hlive : h.Live v) (hextends : h.Extends g) : g.Treelike v := by
  refine hv.induction (motive := fun v => h.Live v → g.Treelike v) (fun v hv hparts hlive => ?_) hlive
  refine treelike_of_parts (fun w hw => ?_) ?_
  · have hw := (hlive.holds_iff hextends).1 hw
    exact hparts w hw (hlive.part hw)
  · rintro id rfl
    rw [hextends.fields id (obj_mem_refs.1 (hlive (.obj id) .refl))]
    exact hv.keys id .refl

theorem Extends.sameAt {r : Ref} (hextends : h.Extends g) (hr : r ∈ h.refs) : h.SameAt g r := by
  cases r with
  | arr id => exact hextends.items id (arr_mem_refs.1 hr)
  | obj id => exact hextends.fields id (obj_mem_refs.1 hr)

theorem SameAt.symm {r : Ref} (hsame : h.SameAt g r) : g.SameAt h r := by
  cases r <;> exact Eq.symm hsame

/-- Whether two values are alike depends on their own elements and entries only. -/
theorem Alike.sameAt {E : Value → Value → Prop} (halike : h.Alike E a b) (ha : ∀ r : Ref, a = r.value → h.SameAt g r)
    (hb : ∀ r : Ref, b = r.value → h.SameAt g r) : g.Alike E a b := by
  cases halike with
  | null => exact .null
  | bool β => exact .bool β
  | num hxy => exact .num hxy
  | str s => exact .str s
  | @arr i j hsize hitems =>
    have hi : g.items i = h.items i := ha (.arr i) rfl
    have hj : g.items j = h.items j := hb (.arr j) rfl
    simp only [← hi, ← hj] at hsize hitems
    exact .arr hsize hitems
  | @obj i j hkeys hvalues =>
    have hi : g.fields i = h.fields i := ha (.obj i) rfl
    have hj : g.fields j = h.fields j := hb (.obj j) rfl
    simp only [← hi, ← hj] at hkeys hvalues
    exact .obj hkeys hvalues

theorem Live.sameAt {r : Ref} (hv : h.Live v) (hextends : h.Extends g) (hr : v = r.value) : h.SameAt g r :=
  hextends.sameAt (hv r (hr ▸ .refl))

theorem Alike.extends {E : Value → Value → Prop} (ha : h.Live a) (hb : h.Live b) (hextends : h.Extends g) :
    g.Alike E a b ↔ h.Alike E a b :=
  ⟨fun halike => halike.sameAt (fun _ hr => (ha.sameAt hextends hr).symm) fun _ hr => (hb.sameAt hextends hr).symm,
    fun halike => halike.sameAt (fun _ hr => ha.sameAt hextends hr) fun _ hr => hb.sameAt hextends hr⟩

theorem Live.equal_eq (ha : h.Live a) (hb : h.Live b) (hextends : h.Extends g) (htree : h.Treelike a)
    (htree' : h.Treelike b) : g.equal a b = h.equal a b := by
  rw [Bool.eq_iff_iff]
  refine htree.induction (motive := fun a => ∀ b, h.Live a → h.Live b → h.Treelike b →
    (g.equal a b = true ↔ h.equal a b = true)) ?_ b ha hb htree'
  intro a htree hparts b ha hb htree'
  rw [equal_iff htree htree', equal_iff (htree.extends ha hextends) (htree'.extends hb hextends),
    Alike.extends ha hb hextends]
  exact or_congr_right (Alike.congr fun x y hx hy =>
    hparts x hx y (ha.part hx) (hb.part hy) (htree'.part hy))

end Heap

end DeskScript
