import DeskScript.Proofs.Builtin.Searching
import DeskScript.Proofs.Builtin.Sorting

set_option autoImplicit false

/-!
# Elements without repetitions and elements equal to a value

Equality sorts the values without cycles and without NaN into classes. Of the elements in each class the first one is kept.
The elements equal to one value and all others make up the array. Main statement: `Builtin.unique_keeps_firsts`.
-/

namespace DeskScript

section Lists

variable {α β : Type} {E F : α → α → Prop} {entries kept : List (α × Nat)} {w : α × Nat}

/-- Of elements with their places the first ones that are equal, in their order: each element is equal to one of those kept
only, and that one stands at the first place of all elements equal to it. -/
structure FirstsOf (E : α → α → Prop) (entries kept : List (α × Nat)) : Prop where
  inOrder : kept.Sublist entries
  apart : kept.Pairwise fun a b => ¬E a.1 b.1 ∧ ¬E b.1 a.1
  first : ∀ a ∈ entries, ∃ b ∈ kept, E a.1 b.1 ∧ (∀ c ∈ kept, E a.1 c.1 → c = b) ∧
    ∀ c ∈ entries, E a.1 c.1 → b.2 ≤ c.2

theorem FirstsOf.congr (hkept : FirstsOf E entries kept)
    (hiff : ∀ a ∈ entries, ∀ b ∈ entries, E a.1 b.1 ↔ F a.1 b.1) : FirstsOf F entries kept where
  inOrder := hkept.inOrder
  apart := hkept.apart.imp_of_mem fun {a b} ha hb =>
    And.imp (mt (hiff a (hkept.inOrder.subset ha) b (hkept.inOrder.subset hb)).2)
      (mt (hiff b (hkept.inOrder.subset hb) a (hkept.inOrder.subset ha)).2)
  first a ha := by
    obtain ⟨b, hb, hab, hone, hleast⟩ := hkept.first a ha
    refine ⟨b, hb, (hiff a ha b (hkept.inOrder.subset hb)).1 hab, fun c hc hac => ?_, fun c hc hac => ?_⟩
    · exact hone c hc ((hiff a ha c (hkept.inOrder.subset hc)).2 hac)
    · exact hleast c hc ((hiff a ha c hc).2 hac)

variable {key : α → β}

/-- An element with the key of one that is kept changes nothing. -/
theorem FirstsOf.repeated (hkept : FirstsOf (fun a b => key a = key b) entries kept) (hplace : ∀ a ∈ entries, a.2 < w.2)
    (hw : ∃ b ∈ kept, key b.1 = key w.1) : FirstsOf (fun a b => key a = key b) (entries ++ [w]) kept where
  inOrder := hkept.inOrder.trans (List.sublist_append_left entries [w])
  apart := hkept.apart
  first a ha := by
    have hbefore : ∃ a' ∈ entries, key a'.1 = key a.1 := by
      rcases List.mem_append.1 ha with ha | ha
      · exact ⟨a, ha, rfl⟩
      · obtain rfl := List.mem_singleton.1 ha
        obtain ⟨b, hb, heq⟩ := hw
        exact ⟨b, hkept.inOrder.subset hb, heq⟩
    obtain ⟨a', ha', heq⟩ := hbefore
    rw [← heq]
    obtain ⟨b, hb, hab, hone, hleast⟩ := hkept.first a' ha'
    refine ⟨b, hb, hab, hone, fun c hc hac => ?_⟩
    rcases List.mem_append.1 hc with hc | hc
    · exact hleast c hc hac
    · rw [List.mem_singleton.1 hc]
      exact (hplace b (hkept.inOrder.subset hb)).le

theorem FirstsOf.added (hkept : FirstsOf (fun a b => key a = key b) entries kept) (hw : ∀ b ∈ kept, key b.1 ≠ key w.1) :
    FirstsOf (fun a b => key a = key b) (entries ++ [w]) (kept ++ [w]) where
  inOrder := hkept.inOrder.append_right [w]
  apart := by
    refine List.pairwise_append.2 ⟨hkept.apart, List.pairwise_singleton _ _, fun b hb c hc => ?_⟩
    rw [List.mem_singleton.1 hc]
    exact ⟨hw b hb, (hw b hb).symm⟩
  first a ha := by
    have hnew : ∀ c ∈ entries, key c.1 ≠ key w.1 := fun c hc => by
      obtain ⟨b, hb, heq, -⟩ := hkept.first c hc
      rw [heq]
      exact hw b hb
    rcases List.mem_append.1 ha with ha | ha
    · obtain ⟨b, hb, hab, hone, hleast⟩ := hkept.first a ha
      refine ⟨b, List.mem_append_left _ hb, hab, List.forall_mem_append.2 ⟨hone, ?_⟩,
        List.forall_mem_append.2 ⟨hleast, ?_⟩⟩
      · exact List.forall_mem_singleton.2 fun heq => absurd heq (hnew a ha)
      · exact List.forall_mem_singleton.2 fun heq => absurd heq (hnew a ha)
    · obtain rfl := List.mem_singleton.1 ha
      refine ⟨a, List.mem_append_right _ ha, rfl, List.forall_mem_append.2 ⟨?_, ?_⟩,
        List.forall_mem_append.2 ⟨?_, ?_⟩⟩
      · exact fun c hc heq => absurd heq.symm (hw c hc)
      · exact List.forall_mem_singleton.2 fun _ => rfl
      · exact fun c hc heq => absurd heq.symm (hnew c hc)
      · exact List.forall_mem_singleton.2 fun _ => le_rfl

/-- A list is parted into the elements that have a property and those that have not, both in their order. -/
structure Parted (P : α → Prop) (items chosen others : List α) : Prop where
  chosenInOrder : chosen.Sublist items
  othersInOrder : others.Sublist items
  perm : items.Perm (chosen ++ others)
  chosen : ∀ v ∈ chosen, P v
  others : ∀ v ∈ others, ¬P v

theorem parted_filter (p : α → Bool) (items : List α) :
    Parted (fun v => p v = true) items (items.filter p) (items.filter fun v => !p v) where
  chosenInOrder := List.filter_sublist
  othersInOrder := List.filter_sublist
  perm := (List.filter_append_perm p items).symm
  chosen _ hv := (List.mem_filter.1 hv).2
  others _ hv := by simpa using (List.mem_filter.1 hv).2

end Lists

namespace Heap

variable {h g : Heap} {v w : Value}

/-- A value on the heap without cycles and without NaN. -/
structure Comparable (h : Heap) (v : Value) : Prop where
  treelike : h.Treelike v
  nanFree : h.NaNFree v
  live : h.Live v

def equalTo (h : Heap) (v : Value) : Set Value := {w | h.Comparable w ∧ h.equal v w = true}

theorem equal_iff_equalTo (hv : h.Comparable v) (hw : h.Comparable w) :
    h.equal v w = true ↔ h.equalTo v = h.equalTo w := by
  constructor
  · intro hvw
    ext u
    refine and_congr_right fun hu => ⟨fun hvu => ?_, fun hwu => ?_⟩
    · exact equal_trans hw.treelike hv.treelike hu.treelike (equal_symm hv.treelike hw.treelike hvw) hvu
    · exact equal_trans hv.treelike hw.treelike hu.treelike hvw hwu
  · intro heq
    have hsame := (equal_iff_same hw.treelike hw.treelike hw.nanFree).2 (.refl hw.treelike hw.nanFree)
    have hself : w ∈ h.equalTo w := ⟨hw, hsame⟩
    rw [← heq] at hself
    exact hself.2

end Heap

open Heap

namespace ArrayFn

variable {h : Heap}

/-- What was kept of the elements so far are the first ones of them, up to the last element. -/
theorem uniqueFrom_firsts (done kept ws : List (Value × Nat))
    (hplaces : (done ++ ws).Pairwise fun a b => a.2 < b.2) (hcomparable : ∀ a ∈ done ++ ws, h.Comparable a.1)
    (hkept : FirstsOf (fun v w => h.equalTo v = h.equalTo w) done kept.reverse) :
    ∃ placed, FirstsOf (fun v w => h.equalTo v = h.equalTo w) (done ++ ws) placed ∧
      uniqueFrom h (kept.map (·.1)) (ws.map (·.1)) = placed.map (·.1) := by
  -- Each element goes over to those that are done, and the invariant is kept whether or not it repeats one of them.
  induction ws generalizing done kept with
  | nil => exact ⟨kept.reverse, (List.append_nil done).symm ▸ hkept, by rw [List.map_nil, uniqueFrom, List.map_reverse]⟩
  | cons w ws ih =>
    have hagree : (kept.map (·.1)).any (h.equal · w.1) = true ↔
        ∃ b ∈ kept.reverse, h.equalTo b.1 = h.equalTo w.1 := by
      rw [List.any_map, List.any_eq_true]
      refine exists_congr fun b => ?_
      rw [List.mem_reverse]
      refine and_congr_right fun hb => equal_iff_equalTo ?_ ?_
      · exact hcomparable b (List.mem_append_left _ (hkept.inOrder.subset (List.mem_reverse.2 hb)))
      · exact hcomparable w (List.mem_append_right _ List.mem_cons_self)
    have hbefore : ∀ a ∈ done, a.2 < w.2 := fun a ha => (List.pairwise_append.1 hplaces).2.2 a ha w List.mem_cons_self
    rw [List.append_cons] at hplaces hcomparable ⊢
    rw [List.map_cons, uniqueFrom]
    split
    · rename_i hrepeated
      exact ih _ kept hplaces hcomparable (hkept.repeated hbefore (hagree.1 hrepeated))
    · rename_i hnew
      refine ih _ (w :: kept) hplaces hcomparable ?_
      rw [List.reverse_cons]
      exact hkept.added fun b hb heq => hnew (hagree.2 ⟨b, hb, heq⟩)

theorem uniqueFrom_nil_firsts (items : List Value) (hitems : ∀ v ∈ items, h.Comparable v) :
    ∃ placed, FirstsOf (fun v w => h.equal v w = true) items.zipIdx placed ∧
      uniqueFrom h [] items = placed.map (·.1) := by
  have hvalues : items.zipIdx.map (·.1) = items := List.zipIdx_map_fst 0 items
  have hcomparable : ∀ a ∈ items.zipIdx, h.Comparable a.1 := fun a ha =>
    hitems a.1 (hvalues ▸ List.mem_map_of_mem ha)
  obtain ⟨placed, hfirsts, hunique⟩ := uniqueFrom_firsts [] [] items.zipIdx (places_increase items) hcomparable
    ⟨.slnil, .nil, nofun⟩
  rw [hvalues] at hunique
  refine ⟨placed, hfirsts.congr fun a ha b hb => ?_, hunique⟩
  exact (equal_iff_equalTo (hcomparable a ha) (hcomparable b hb)).symm

/-- Elements of which none is equal to a later one are all kept. -/
theorem uniqueFrom_apart {kept ws : List Value} (hapart : (kept.reverse ++ ws).Pairwise fun v w => ¬h.equal v w = true) :
    uniqueFrom h kept ws = kept.reverse ++ ws := by
  induction ws generalizing kept with
  | nil => rw [uniqueFrom, List.append_nil]
  | cons w ws ih =>
    have hnew : kept.any (h.equal · w) = false := by
      rw [List.any_eq_false]
      exact fun v hv => (List.pairwise_append.1 hapart).2.2 v (List.mem_reverse.2 hv) w List.mem_cons_self
    rw [uniqueFrom, hnew, if_neg Bool.false_ne_true]
    rw [List.append_cons, ← List.reverse_cons] at hapart ⊢
    exact ih hapart

end ArrayFn

namespace Builtin

variable {h : Heap} {host : Host} {id : Nat} {v : Value}

theorem call_unique : call "unique" h host [.arr id] = .makes h host (ArrayFn.uniqueFrom h [] (h.items id).toList) :=
  call_gives (find?_array (f := .unique) (by decide)) rfl rfl

theorem call_filter : call "filter" h host [.arr id, v] = .makes h host ((h.items id).toList.filter (h.equal · v)) := by
  refine call_gives (find?_array (f := .filter) (by decide)) rfl ?_
  change reached h host (.array h ((h.items id).filter (h.equal · v))) = _
  rw [← Array.toList_filter]
  rfl

theorem call_reject : call "reject" h host [.arr id, v] = .makes h host ((h.items id).toList.filter (!h.equal · v)) := by
  refine call_gives (find?_array (f := .reject) (by decide)) rfl ?_
  change reached h host (.array h ((h.items id).filter (!h.equal · v))) = _
  rw [← Array.toList_filter]
  rfl

theorem call_count : call "count" h host [.arr id] = .gives h host (.num (Number.ofNat (h.items id).size)) :=
  call_gives (find?_sequence (f := .count) (by decide)) rfl rfl

/-- What is kept of an array is all kept of the new array. -/
theorem call_unique_plus {items : List Value} (hitems : ∀ w ∈ items, h.Comparable w)
    (hapart : items.Pairwise fun v w => ¬h.equal v w = true) :
    call "unique" (h.plus items) host [.arr h.arrays.size] = .makes (h.plus items) host items := by
  rw [call_unique, items_plus, ArrayFn.uniqueFrom_apart]
  · rfl
  · refine hapart.imp_of_mem fun {v w} hv hw hvw => ?_
    have hv := hitems v hv
    have hw := hitems w hw
    rwa [hv.live.equal_eq hw.live (extends_plus h items) hv.treelike hw.treelike]

def Selects (h : Heap) (host : Host) (id : Nat) (v : Value) : Prop :=
  ∃ (chosen others : List Value) (found : Bool) (x n : Float),
    call "filter" h host [.arr id, v] = .makes h host chosen ∧ call "reject" h host [.arr id, v] = .makes h host others ∧
    Parted (fun w => h.equal w v = true) (h.items id).toList chosen others ∧
    call "includes" h host [.arr id, v] = .gives h host (.bool found) ∧
    call "findIndex" h host [.arr id, v] = .gives h host (.num x) ∧
    call "count" (h.plus chosen) host [.arr h.arrays.size] = .gives (h.plus chosen) host (.num n) ∧
    (found = true ↔ ∃ w ∈ h.items id, h.equal w v = true) ∧ (found = true ↔ 0 ≤ x) ∧ (found = true ↔ 0 < n)

theorem equals_nonempty : (h.equals id v).Nonempty ↔ ∃ w ∈ h.items id, h.equal w v = true := by
  constructor
  · rintro ⟨i, hi, hequal⟩
    exact ⟨_, Array.getElem_mem hi, hequal⟩
  · rintro ⟨w, hw, hequal⟩
    obtain ⟨i, hi, rfl⟩ := Array.getElem_of_mem hw
    exact ⟨i, hi, hequal⟩

theorem selects (h : Heap) (host : Host) (id : Nat) (v : Value) : Selects h host id v := by
  have hfirst := findIndex_found h id v
  have hfound := hfirst.isSome_iff fun _ hi => hi.1
  have hsize (chosen : List Value) : ((h.plus chosen).items h.arrays.size).size = chosen.length := by
    rw [← Array.length_toList, items_plus]
  refine ⟨_, _, _, offsetText (SequenceFn.findIndex h (h.items id).toList v 0), _, call_filter, call_reject,
    parted_filter (h.equal · v) (h.items id).toList, ?_, ?_, call_count, hfound.trans equals_nonempty, ?_, ?_⟩
  · exact call_gives (find?_array (f := .includes) (by decide)) rfl rfl
  · exact call_gives (find?_array (f := .findIndex) (by decide)) rfl rfl
  · exact hfound.trans (hfirst.reports.nonneg_iff fun _ hi => hi.1).symm
  · rw [hsize, Number.ofNat_pos_iff, List.length_pos_iff_exists_mem, hfound, equals_nonempty]
    simp only [List.mem_filter, Array.mem_toList_iff]

/-- **Repetitions.** Of an array whose elements have no cycles and no NaN the first of all equal elements are kept, in their
order, and nothing is removed from what was kept. The elements equal to a value are selected alike by all that select or
count them. -/
theorem unique_keeps_firsts (h : Heap) (host : Host) (id : Nat) (hitems : ∀ v ∈ h.items id, h.Comparable v) :
    (∃ (placed : List (Value × Nat)) (kept : List Value), kept = placed.map (·.1) ∧
      FirstsOf (fun v w => h.equal v w = true) (h.items id).toList.zipIdx placed ∧
      call "unique" h host [.arr id] = .makes h host kept ∧
      call "unique" (h.plus kept) host [.arr h.arrays.size] = .makes (h.plus kept) host kept) ∧
    ∀ v : Value, Selects h host id v := by
  refine ⟨?_, selects h host id⟩
  obtain ⟨placed, hfirsts, hunique⟩ := ArrayFn.uniqueFrom_nil_firsts (h.items id).toList fun v hv =>
    hitems v (Array.mem_toList_iff.1 hv)
  refine ⟨placed, _, rfl, hfirsts, by rw [call_unique, hunique], call_unique_plus ?_ ?_⟩
  · refine List.forall_mem_map.2 fun a ha => hitems a.1 ?_
    exact Array.mem_toList_iff.1 (List.fst_mem_of_mem_zipIdx (hfirsts.inOrder.subset ha))
  · rw [List.pairwise_map]
    exact hfirsts.apart.imp (·.1)

def zeroHeap : Heap where
  arrays := #[#[.arr 1, .num 0, .arr 2, .num (-0)], #[.num 0], #[.num (-0)]]

theorem holds_zeroHeap {v w : Value} (hw : zeroHeap.Holds v w) :
    v = .arr 0 ∧ (w = .arr 1 ∨ w = .arr 2) ∨ (∃ i, v = .arr i) ∧ (w = .num 0 ∨ w = .num (-0)) := by
  match v, hw with
  | .arr 0, hw =>
    have hw : w ∈ [Value.arr 1, .num 0, .arr 2, .num (-0)] := hw
    simp only [List.mem_cons, List.not_mem_nil, or_false] at hw
    rcases hw with rfl | rfl | rfl | rfl
    · exact .inl ⟨rfl, .inl rfl⟩
    · exact .inr ⟨⟨0, rfl⟩, .inl rfl⟩
    · exact .inl ⟨rfl, .inr rfl⟩
    · exact .inr ⟨⟨0, rfl⟩, .inr rfl⟩
  | .arr 1, hw => exact .inr ⟨⟨1, rfl⟩, .inl (List.mem_singleton.1 hw)⟩
  | .arr 2, hw => exact .inr ⟨⟨2, rfl⟩, .inr (List.mem_singleton.1 hw)⟩
  | .arr (i + 3), hw => exact absurd hw List.not_mem_nil
  | .obj i, hw => exact absurd hw List.not_mem_nil

def zeroRank : Value → Nat
  | .arr 0 => 2
  | .arr _ => 1
  | _ => 0

theorem treelike_zeroHeap (v : Value) : zeroHeap.Treelike v where
  acyclic := by
    refine acyclic_of_rank zeroRank (fun v w hw => ?_) v
    obtain ⟨rfl, rfl | rfl⟩ | ⟨⟨i, rfl⟩, rfl | rfl⟩ := holds_zeroHeap hw
    · exact Nat.lt_succ_self 1
    · exact Nat.lt_succ_self 1
    all_goals
      cases i with
      | zero => exact Nat.two_pos
      | succ i => exact Nat.one_pos
  keys id _ := .nil

theorem live_zeroHeap : zeroHeap.Live (.arr 0) := by
  have hrefs : ∀ i < 3, (.arr i : Ref) ∈ zeroHeap.refs := by decide
  refine live_of_closed (fun r _ c hc => ?_) fun r hr => ?_
  · obtain ⟨-, hw | hw⟩ | ⟨-, hw | hw⟩ := holds_zeroHeap hc <;> cases c <;> cases hw
    · exact hrefs 1 (by decide)
    · exact hrefs 2 (by decide)
  · cases r <;> cases hr
    exact hrefs 0 (by decide)

theorem nanFree_zeroHeap : zeroHeap.NaNFree (.arr 0) := by
  refine nanFree_of_holds nofun fun w x hw => ?_
  obtain ⟨-, hw | hw⟩ | ⟨-, hw | hw⟩ := holds_zeroHeap hw <;> cases hw
  · decide +kernel
  · decide +kernel

/-- The array within is equal to the first one, and so are the zeros to one another. -/
theorem unique_keeps_firsts_zeros : (∀ v ∈ zeroHeap.items 0, zeroHeap.Comparable v) ∧
    ∃ placed : List (Value × Nat),
      FirstsOf (fun v w => zeroHeap.equal v w = true) [(.arr 1, 0), (.num 0, 1), (.arr 2, 2), (.num (-0), 3)] placed ∧
      call "unique" zeroHeap {} [.arr 0] = .makes zeroHeap {} (placed.map (·.1)) := by
  have hitems : ∀ v ∈ zeroHeap.items 0, zeroHeap.Comparable v := fun v hv =>
    have hv : zeroHeap.Holds (.arr 0) v := Array.mem_toList_iff.2 hv
    ⟨treelike_zeroHeap v, nanFree_zeroHeap.part hv, live_zeroHeap.part hv⟩
  obtain ⟨⟨placed, _, rfl, hfirsts, hunique, -⟩, -⟩ := unique_keeps_firsts zeroHeap {} 0 hitems
  exact ⟨hitems, placed, hfirsts, hunique⟩

end Builtin

end DeskScript
