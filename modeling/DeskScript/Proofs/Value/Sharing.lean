import DeskScript.Builtin.Arrays
import DeskScript.Proofs.Value.Equality
import DeskScript.Value.Operator
import Mathlib.Data.List.Find

set_option autoImplicit false

/-!
# Equality and shared collections

A collection is equal to itself even if there is NaN in it, and a copy of it is not. This is all that sharing does: copies
that share nothing are equal exactly if the values are and the comparison meets no collection with NaN in it on both
sides. Where it does not, what is shared makes no difference to any of the functions that compare. Main statement:
`Heap.equal_copied_iff`.
-/

namespace DeskScript

theorem Number.isNaN_of_beq_self {x : Float} (hx : (x == x) = true) : x.isNaN = false := by
  rw [beq_iff] at hx
  change x.toModel.unpack.isNaN = false
  generalize x.toModel.unpack = u at hx
  cases hx <;> rfl

theorem Dict.get?_of_keys {α : Type} {d e : Dict α} (hkeys : d.keys = e.keys) {k : String} {y : α}
    (hy : e.get? k = some y) : ∃ x, d.get? k = some x :=
  mem_keys_iff.1 (hkeys ▸ mem_keys_iff.2 ⟨y, hy⟩)

theorem findIdx?_congr {α : Type} {p p' : α → Bool} {xs : List α} (hagree : ∀ x ∈ xs, p x = p' x) :
    xs.findIdx? p = xs.findIdx? p' := by
  induction xs with
  | nil => rfl
  | cons x xs ih =>
    rw [List.forall_mem_cons] at hagree
    rw [List.findIdx?_cons, List.findIdx?_cons, hagree.1, ih hagree.2]

namespace Heap

variable {h h' : Heap} {a b a' b' : Value}

inductive Copied (h h' : Heap) : Value → Value → Prop where
  | constant {v : Value} (hv : ∀ r : Ref, v ≠ r.value) : Copied h h' v v
  | arr {i j : Nat} (hsize : (h.items i).size = (h'.items j).size)
      (hitems : ∀ n (hi : n < (h.items i).size) (hj : n < (h'.items j).size), Copied h h' (h.items i)[n] (h'.items j)[n]) :
      Copied h h' (.arr i) (.arr j)
  | obj {i j : Nat} (hkeys : (h.fields i).keys = (h'.fields j).keys)
      (hvalues : ∀ k x y, (h.fields i).get? k = some x → (h'.fields j).get? k = some y → Copied h h' x y) :
      Copied h h' (.obj i) (.obj j)

def Apart (h : Heap) (a b : Value) : Prop := ∀ r : Ref, h.Reaches a r.value → ¬ h.Reaches b r.value

theorem Apart.part (hapart : h.Apart a b) {x y : Value} (hx : h.Holds a x) (hy : h.Holds b y) : h.Apart x y :=
  fun r hr hr' => hapart r (.head hx hr) (.head hy hr')

theorem Copied.symm (hcopied : h.Copied h' a a') : h'.Copied h a' a := by
  induction hcopied with
  | constant hv => exact .constant hv
  | arr hsize _ ih => exact .arr hsize.symm fun n hi hj => ih n hj hi
  | obj hkeys _ ih => exact .obj hkeys.symm fun k x y hx hy => ih k y x hy hx

theorem treelike_of_parts (hparts : ∀ w, h.Holds a w → h.Treelike w)
    (hkeys : ∀ id, a = .obj id → (h.fields id).keys.Nodup) : h.Treelike a where
  acyclic := acyclic_of_parts fun w hw => (hparts w hw).acyclic
  keys id hid := by
    obtain heq | ⟨w, hw, hreaches⟩ := Relation.ReflTransGen.cases_head hid
    · exact hkeys id heq
    · exact (hparts w hw).keys id hreaches

theorem Copied.treelike (hcopied : h.Copied h' a a') (ha : h.Treelike a) : h'.Treelike a' := by
  induction hcopied with
  | @constant v hv =>
    refine treelike_of_parts (fun w hw => ?_) fun id hid => absurd hid (hv (.obj id))
    cases v with
    | null | bool _ | num _ | str _ => exact absurd hw List.not_mem_nil
    | arr i => exact absurd rfl (hv (.arr i))
    | obj i => exact absurd rfl (hv (.obj i))
  | @arr i j hsize _ ih =>
    refine treelike_of_parts (fun w hw => ?_) nofun
    obtain ⟨n, hn, rfl⟩ := Array.getElem_of_mem (Array.mem_toList_iff.1 hw)
    exact ih n (hsize ▸ hn) hn (ha.part (holds_item _))
  | @obj i j hkeys _ ih =>
    have hnodup := hkeys ▸ ha.keys i .refl
    refine treelike_of_parts (fun w hw => ?_) ?_
    · obtain ⟨⟨k, w⟩, hmem, rfl⟩ := List.mem_map.1 hw
      have hw := Dict.get?_of_mem hnodup hmem
      obtain ⟨x, hx⟩ := Dict.get?_of_keys hkeys hw
      exact ih k x w hx hw (ha.part (holds_field hx))
    · rintro _ ⟨⟩
      exact hnodup

theorem copied_single {i j : Nat} {v : Value} (hi : h.items i = #[v]) (hj : h'.items j = #[v])
    (hv : ∀ r : Ref, v ≠ r.value) : h.Copied h' (.arr i) (.arr j) := by
  refine .arr (by rw [hi, hj]) fun n hn hn' => ?_
  simp only [hi, hj, List.getElem_toArray, List.getElem_singleton]
  exact .constant hv

theorem Alike.copied {E F : Value → Value → Prop} (halike : h.Alike E a b) (ha : h.Copied h' a a')
    (hb : h.Copied h' b b') (hparts : ∀ x y x' y', h.Holds a x → h.Copied h' x x' → h.Copied h' y y' → E x y → F x' y') :
    h'.Alike F a' b' := by
  cases ha with
  | constant ha =>
    cases hb with
    | constant hb =>
      cases halike with
      | null => exact .null
      | bool β => exact .bool β
      | num hxy => exact .num hxy
      | str s => exact .str s
      | arr => exact absurd rfl (ha (.arr _))
      | obj => exact absurd rfl (ha (.obj _))
    | arr => cases halike; exact absurd rfl (ha (.arr _))
    | obj => cases halike; exact absurd rfl (ha (.obj _))
  | arr hsize hitems =>
    cases halike with
    | arr halong heq =>
      cases hb with
      | constant hb => exact absurd rfl (hb (.arr _))
      | arr hsize' hitems' =>
        refine .arr (hsize.symm.trans (halong.trans hsize')) fun n hi hj => ?_
        have hi := hsize ▸ hi
        have hj := hsize' ▸ hj
        exact hparts _ _ _ _ (holds_item hi) (hitems n hi _) (hitems' n hj _) (heq n hi hj)
  | obj hkeys hvalues =>
    cases halike with
    | obj halong heq =>
      cases hb with
      | constant hb => exact absurd rfl (hb (.obj _))
      | obj hkeys' hvalues' =>
        refine .obj (hkeys ▸ hkeys' ▸ halong) fun k x' y' hx' hy' => ?_
        obtain ⟨x, hx⟩ := Dict.get?_of_keys hkeys hx'
        obtain ⟨y, hy⟩ := Dict.get?_of_keys hkeys' hy'
        exact hparts x y x' y' (holds_field hx) (hvalues k x x' hx hx') (hvalues' k y y' hy hy') (heq k x y hx hy)

theorem Same.copied (ha : h.Treelike a) (hsame : h.Same a b) (hca : h.Copied h' a a') (hcb : h.Copied h' b b') :
    h'.Same a' b' := by
  refine ha.induction (motive := fun a => ∀ b a' b', h.Same a b → h.Copied h' a a' → h.Copied h' b b' → h'.Same a' b')
    ?_ b a' b' hsame hca hcb
  rintro a ha hparts b a' b' ⟨halike⟩ hca hcb
  exact .of (halike.copied hca hcb fun x y x' y' hx hcx hcy hxy => hparts x hx y x' y' hxy hcx hcy)

/-- A comparison place by place comes to a collection on both sides. -/
inductive Meets (h : Heap) (r : Ref) : Value → Value → Prop where
  | here : Meets h r r.value r.value
  | item {i j n : Nat} (hi : n < (h.items i).size) (hj : n < (h.items j).size)
      (hmeets : Meets h r (h.items i)[n] (h.items j)[n]) : Meets h r (.arr i) (.arr j)
  | field {i j : Nat} {k : String} {x y : Value} (hx : (h.fields i).get? k = some x) (hy : (h.fields j).get? k = some y)
      (hmeets : Meets h r x y) : Meets h r (.obj i) (.obj j)

def Clear (h : Heap) (a b : Value) : Prop := ∀ r, h.Meets r a b → h.NaNFree r.value

/-- A value that is alike to itself has each of its parts at the same place as itself. -/
theorem Alike.part_self {E : Value → Value → Prop} {x : Value} (ha : h.Treelike a) (halike : h.Alike E a a)
    (hx : h.Holds a x) : E x x := by
  cases halike with
  | null | bool _ | num _ | str _ => exact absurd hx List.not_mem_nil
  | @arr i _ _ hitems =>
    obtain ⟨n, hn, rfl⟩ := Array.getElem_of_mem (Array.mem_toList_iff.1 hx)
    exact hitems n hn hn
  | @obj i _ _ hvalues =>
    obtain ⟨⟨k, x⟩, hmem, rfl⟩ := List.mem_map.1 hx
    have hx := Dict.get?_of_mem (ha.keys i .refl) hmem
    exact hvalues k x x hx hx

theorem Meets.reaches {r : Ref} (hmeets : h.Meets r a b) : h.Reaches a r.value := by
  induction hmeets with
  | here => exact .refl
  | item hi _ _ ih => exact .head (holds_item hi) ih
  | field hx _ _ ih => exact .head (holds_field hx) ih

theorem NaNFree.clear (hfree : h.NaNFree a) : h.Clear a b := fun _ hmeets x hx => hfree x (hmeets.reaches.trans hx)

theorem Same.nanFree (ha : h.Treelike a) (hsame : h.Same a a) : h.NaNFree a := by
  refine ha.induction (motive := fun a => h.Same a a → h.NaNFree a) ?_ hsame
  rintro a ha hparts ⟨halike⟩ x hx
  obtain rfl | ⟨w, hw, hreaches⟩ := Relation.ReflTransGen.cases_head hx
  · cases halike with
    | num hxx => exact Number.isNaN_of_beq_self hxx
  · exact hparts w hw (halike.part_self ha hw) x hreaches

/-- Values are the same if they are equal and nothing that is met in comparing them has NaN in it. -/
theorem same_iff (ha : h.Treelike a) (hb : h.Treelike b) : h.Same a b ↔ h.equal a b = true ∧ h.Clear a b := by
  refine ha.induction (motive := fun a => ∀ b, h.Treelike b → (h.Same a b ↔ h.equal a b = true ∧ h.Clear a b)) ?_ b hb
  intro a ha hparts b hb
  rw [equal_iff ha hb]
  constructor
  · rintro ⟨halike⟩
    have hpart {x y : Value} (hx : h.Holds a x) (hy : h.Holds b y) (hxy : h.Same x y) :
        h.equal x y = true ∧ h.Clear x y := (hparts x hx y (hb.part hy)).1 hxy
    refine ⟨.inr (halike.imp fun x y hx hy hxy => (hpart hx hy hxy).1), fun r hmeets => ?_⟩
    cases hmeets with
    | here => exact Same.nanFree ha ⟨halike⟩
    | item hi hj hmeets =>
      cases halike with
      | arr _ hitems => exact (hpart (holds_item hi) (holds_item hj) (hitems _ hi hj)).2 r hmeets
    | field hx hy hmeets =>
      cases halike with
      | obj _ hvalues => exact (hpart (holds_field hx) (holds_field hy) (hvalues _ _ _ hx hy)).2 r hmeets
  · rintro ⟨⟨r, rfl, rfl⟩ | halike, hclear⟩
    -- The comparison has not looked into the collection, so that it is the same as itself follows from its being clear.
    · exact .refl ha (hclear r .here)
    have hpart {x y : Value} (hx : h.Holds a x) (hy : h.Holds b y) (hxy : h.equal x y = true) (hclear : h.Clear x y) :
        h.Same x y := (hparts x hx y (hb.part hy)).2 ⟨hxy, hclear⟩
    refine .of ?_
    cases halike with
    | null => exact .null
    | bool β => exact .bool β
    | num hxy => exact .num hxy
    | str s => exact .str s
    | arr hsize hitems =>
      refine .arr hsize fun n hi hj => hpart (holds_item hi) (holds_item hj) (hitems n hi hj) fun r hmeets => ?_
      exact hclear r (.item hi hj hmeets)
    | obj hkeys hvalues =>
      refine .obj hkeys fun k x y hx hy => hpart (holds_field hx) (holds_field hy) (hvalues k x y hx hy) ?_
      exact fun r hmeets => hclear r (.field hx hy hmeets)

/-- Values that share nothing are equal exactly if they are the same. -/
theorem equal_apart (ha : h.Treelike a) (hb : h.Treelike b) (hapart : h.Apart a b) :
    h.equal a b = true ↔ h.Same a b := by
  refine ha.induction (motive := fun a => ∀ b, h.Treelike b → h.Apart a b → (h.equal a b = true ↔ h.Same a b)) ?_
    b hb hapart
  intro a ha hparts b hb hapart
  rw [equal_iff ha hb]
  constructor
  · rintro (⟨r, rfl, rfl⟩ | halike)
    · exact absurd .refl (hapart r .refl)
    · exact .of (halike.imp fun x y hx hy => (hparts x hx y (hb.part hy) (hapart.part hx hy)).1)
  · rintro ⟨halike⟩
    exact .inr (halike.imp fun x y hx hy => (hparts x hx y (hb.part hy) (hapart.part hx hy)).2)

/-- Copies that share nothing are equal if and only if the values are and the comparison does not meet NaN on both
sides inside one collection. -/
theorem equal_copied (ha : h.Treelike a) (hb : h.Treelike b) (hca : h.Copied h' a a') (hcb : h.Copied h' b b')
    (hapart : h'.Apart a' b') : h'.equal a' b' = true ↔ h.equal a b = true ∧ h.Clear a b := by
  have ha' := hca.treelike ha
  rw [equal_apart ha' (hcb.treelike hb) hapart, ← same_iff ha hb]
  exact ⟨fun hsame => hsame.copied ha' hca.symm hcb.symm, fun hsame => hsame.copied ha hca hcb⟩

theorem equal_copied_clear (ha : h.Treelike a) (hb : h.Treelike b) (hca : h.Copied h' a a') (hcb : h.Copied h' b b')
    (hapart : h'.Apart a' b') (hclear : h.Clear a b) : h'.equal a' b' = h.equal a b := by
  rw [Bool.eq_iff_iff, equal_copied ha hb hca hcb hapart]
  exact and_iff_left hclear

inductive CopiedOutcome (h h' : Heap) : Outcome → Outcome → Prop where
  | value {v v' : Value} (hcopied : h.Copied h' v v') : CopiedOutcome h h' (.give h v) (.give h' v')
  | array {ws : List (Value × Value)} (hcopied : ∀ w ∈ ws, h.Copied h' w.1 w.2) :
      CopiedOutcome h h' (.array h (ws.map (·.1)).toArray) (.array h' (ws.map (·.2)).toArray)

/-- Of the elements of an array and of its copy the same ones are kept. -/
theorem uniqueFrom_pairs (ks : List (Value × Value)) {ws : List (Value × Value)}
    (hagree : (ks.reverse ++ ws).Pairwise fun u w => h'.equal u.2 w.2 = h.equal u.1 w.1) :
    ∃ us, us ⊆ ks.reverse ++ ws ∧ ArrayFn.uniqueFrom h (ks.map (·.1)) (ws.map (·.1)) = us.map (·.1) ∧
      ArrayFn.uniqueFrom h' (ks.map (·.2)) (ws.map (·.2)) = us.map (·.2) := by
  induction ws generalizing ks with
  | nil => exact ⟨ks.reverse, List.subset_append_left .., by simp [ArrayFn.uniqueFrom], by simp [ArrayFn.uniqueFrom]⟩
  | cons w ws ih =>
    have hkept : (ks.map (·.2)).any (h'.equal · w.2) = (ks.map (·.1)).any (h.equal · w.1) := by
      obtain ⟨-, -, hbefore⟩ := List.pairwise_append.1 hagree
      rw [List.any_map, List.any_map, Bool.eq_iff_iff, List.any_eq_true, List.any_eq_true]
      refine exists_congr fun u => and_congr_right fun hu => ?_
      rw [Function.comp_apply, Function.comp_apply, hbefore u (List.mem_reverse.2 hu) w List.mem_cons_self]
    simp only [List.map_cons, ArrayFn.uniqueFrom, hkept]
    split
    · have hless : (ks.reverse ++ ws).Sublist (ks.reverse ++ w :: ws) := (List.sublist_cons_self w ws).append_left _
      obtain ⟨us, hus, hunique⟩ := ih ks (hagree.sublist hless)
      exact ⟨us, fun u hu => hless.subset (hus hu), hunique⟩
    · rw [List.append_cons, ← List.reverse_cons] at hagree ⊢
      exact ih (w :: ks) hagree

structure Paired (h h' : Heap) (i i' : Nat) (ws : List (Value × Value)) : Prop where
  left : (h.items i).toList = ws.map (·.1)
  right : (h'.items i').toList = ws.map (·.2)
  copied : ∀ w ∈ ws, h.Copied h' w.1 w.2

theorem Copied.paired {i i' : Nat} (hcopied : h.Copied h' (.arr i) (.arr i')) : ∃ ws, h.Paired h' i i' ws := by
  cases hcopied with
  | constant hv => exact absurd rfl (hv (.arr i))
  | arr hsize hitems =>
    refine ⟨(h.items i).toList.zip (h'.items i').toList, ?_, ?_, ?_⟩
    · exact (List.map_fst_zip (by simp [hsize])).symm
    · exact (List.map_snd_zip (by simp [hsize])).symm
    · intro w hw
      obtain ⟨n, hn, rfl⟩ := List.getElem_of_mem hw
      rw [List.length_zip, Array.length_toList, Array.length_toList] at hn
      rw [List.getElem_zip]
      exact hitems n (by omega) (by omega)

section Paired

variable {i i' : Nat} {ws : List (Value × Value)}

theorem Paired.holds (hpaired : h.Paired h' i i' ws) {w : Value × Value} (hw : w ∈ ws) :
    h.Holds (.arr i) w.1 ∧ h'.Holds (.arr i') w.2 := by
  refine ⟨?_, ?_⟩
  · change w.1 ∈ (h.items i).toList
    exact hpaired.left ▸ List.mem_map_of_mem hw
  · change w.2 ∈ (h'.items i').toList
    exact hpaired.right ▸ List.mem_map_of_mem hw

/-- A search finds the same place if the test does not tell an element from its copy. -/
theorem Paired.findIndex (hpaired : h.Paired h' i i' ws) (hagree : ∀ w ∈ ws, h'.equal w.2 b' = h.equal w.1 b) :
    SequenceFn.findIndex h' (h'.items i').toList b' 0 = SequenceFn.findIndex h (h.items i).toList b 0 := by
  rw [SequenceFn.findIndex, SequenceFn.findIndex, List.drop_zero, List.drop_zero, hpaired.left, hpaired.right,
    List.findIdx?_map, List.findIdx?_map]
  exact congrArg (Option.map (· + 0)) (findIdx?_congr hagree)

theorem Paired.find (hpaired : h.Paired h' i i' ws) (hagree : ∀ w ∈ ws, h'.equal w.2 b' = h.equal w.1 b) :
    h.Copied h' (((h.items i).toList.find? (h.equal · b)).getD .null)
      (((h'.items i').toList.find? (h'.equal · b')).getD .null) := by
  have hplace : ws.find? ((h'.equal · b') ∘ (·.2)) = ws.find? ((h.equal · b) ∘ (·.1)) := List.find?_congr hagree
  rw [hpaired.left, hpaired.right, List.find?_map, List.find?_map, hplace]
  cases hfound : ws.find? ((h.equal · b) ∘ (·.1)) with
  | none => exact .constant nofun
  | some w => exact hpaired.copied w (List.mem_of_find?_eq_some hfound)

/-- The same elements are chosen if the test does not tell an element from its copy. -/
theorem Paired.filter (hpaired : h.Paired h' i i' ws) {p p' : Value → Bool} (hagree : ∀ w ∈ ws, p' w.2 = p w.1) :
    CopiedOutcome h h' (.array h ((h.items i).filter p)) (.array h' ((h'.items i').filter p')) := by
  have hleft : (h.items i).filter p = ((ws.filter (p ∘ (·.1))).map (·.1)).toArray := by
    rw [← List.filter_map, ← hpaired.left, ← Array.toList_filter, Array.toArray_toList]
  have hright : (h'.items i').filter p' = ((ws.filter (p ∘ (·.1))).map (·.2)).toArray := by
    rw [← List.filter_congr (p := p' ∘ (·.2)) hagree, ← List.filter_map, ← hpaired.right, ← Array.toList_filter,
      Array.toArray_toList]
  rw [hleft, hright]
  exact .array fun w hw => hpaired.copied w (List.mem_of_mem_filter hw)

/-- A search for a value and a choice by one give copies if it is equal to the same elements. -/
theorem Paired.search (hpaired : h.Paired h' i i' ws) (hagree : ∀ w ∈ ws, h'.equal w.2 b' = h.equal w.1 b) :
    ∀ f ∈ [ArrayFn.includes, .findIndex, .find, .filter, .reject],
      CopiedOutcome h h' (f.apply h [.arr i, b]) (f.apply h' [.arr i', b']) := by
  intro f hf
  have hindex := hpaired.findIndex hagree
  simp only [List.mem_cons, List.not_mem_nil, or_false] at hf
  rcases hf with rfl | rfl | rfl | rfl | rfl
  · rw [ArrayFn.apply, ArrayFn.apply, hindex]
    exact .value (.constant nofun)
  · rw [ArrayFn.apply, ArrayFn.apply, hindex]
    exact .value (.constant nofun)
  · exact .value (hpaired.find hagree)
  · exact hpaired.filter hagree
  · exact hpaired.filter fun w hw => congrArg not (hagree w hw)

theorem Paired.unique (hpaired : h.Paired h' i i' ws)
    (hagree : ws.Pairwise fun u w => h'.equal u.2 w.2 = h.equal u.1 w.1) :
    CopiedOutcome h h' (ArrayFn.unique.apply h [.arr i]) (ArrayFn.unique.apply h' [.arr i']) := by
  obtain ⟨us, hus, hfirst, hsecond⟩ := uniqueFrom_pairs [] hagree
  rw [List.map_nil] at hfirst hsecond
  rw [ArrayFn.apply, ArrayFn.apply, hpaired.left, hpaired.right, hfirst, hsecond]
  exact .array fun w hw => hpaired.copied w (hus hw)

end Paired

/-- Copies that share nothing with each other are equal exactly if the values are and the comparison meets no collection
with NaN in it on both sides, as it does if the values are one such collection. Everywhere else it does not matter what is
shared: the copies are as equal as the values, the search for a value in an array and the choice of elements by a value
give copies, and so do the elements of an array without their repetitions. -/
theorem equal_copied_iff (ha : h.Treelike a) (hb : h.Treelike b) (hca : h.Copied h' a a') (hcb : h.Copied h' b b')
    (hapart : h'.Apart a' b') :
    (h'.equal a' b' = true ↔ h.equal a b = true ∧ h.Clear a b) ∧
    (h.Clear a b → ∀ op, op = .eq ∨ op = .ne →
      ∃ β, h.binary op a b = .ok (.bool β, h) ∧ h'.binary op a' b' = .ok (.bool β, h')) ∧
    (∀ i i', a = .arr i → a' = .arr i' → (∀ x ∈ h.items i, h.Clear x b) →
      ∀ f ∈ [ArrayFn.includes, .findIndex, .find, .filter, .reject],
        CopiedOutcome h h' (f.apply h [a, b]) (f.apply h' [a', b'])) ∧
    (∀ i i', a = .arr i → a' = .arr i' → (h.items i).toList.Pairwise h.Clear → (h'.items i').toList.Pairwise h'.Apart →
      CopiedOutcome h h' (ArrayFn.unique.apply h [a]) (ArrayFn.unique.apply h' [a'])) := by
  refine ⟨equal_copied ha hb hca hcb hapart, ?operator, ?search, ?unique⟩
  case operator =>
    intro hclear op hop
    have hequal := equal_copied_clear ha hb hca hcb hapart hclear
    rcases hop with rfl | rfl
    · exact ⟨h.equal a b, rfl, by rw [binary, hequal]⟩
    · exact ⟨!h.equal a b, rfl, by rw [binary, hequal]⟩
  case search =>
    rintro i i' rfl rfl hclear f hf
    obtain ⟨ws, hpaired⟩ := hca.paired
    have hagree : ∀ w ∈ ws, h'.equal w.2 b' = h.equal w.1 b := by
      intro w hw
      obtain ⟨hx, hx'⟩ := hpaired.holds hw
      exact equal_copied_clear (ha.part hx) hb (hpaired.copied w hw) hcb (fun r hr => hapart r (.head hx' hr))
        (hclear w.1 (Array.mem_toList_iff.1 hx))
    exact hpaired.search hagree f hf
  case unique =>
    rintro i i' rfl rfl hclear hapart
    obtain ⟨ws, hpaired⟩ := hca.paired
    rw [hpaired.left, List.pairwise_map] at hclear
    rw [hpaired.right, List.pairwise_map] at hapart
    refine hpaired.unique ((hclear.and hapart).imp_of_mem fun {u w} hu hw hboth => ?_)
    obtain ⟨hx, -⟩ := hpaired.holds hu
    obtain ⟨hy, -⟩ := hpaired.holds hw
    exact equal_copied_clear (ha.part hx) (ha.part hy) (hpaired.copied u hu) (hpaired.copied w hw) hboth.2 hboth.1

def sharedHeap : Heap where
  arrays := #[#[.num Number.notANumber], #[.num 1], #[.arr 1, .arr 1]]

def apartHeap : Heap where
  arrays := #[#[.num Number.notANumber], #[.num Number.notANumber], #[.num 1], #[.num 1], #[.num 1], #[.arr 2, .arr 3]]

theorem holds_sharedHeap {v w : Value} (hw : sharedHeap.Holds v w) :
    v = .arr 0 ∧ w = .num Number.notANumber ∨ v = .arr 1 ∧ w = .num 1 ∨ v = .arr 2 ∧ w = .arr 1 := by
  match v, hw with
  | .arr 0, hw => exact .inl ⟨rfl, List.mem_singleton.1 hw⟩
  | .arr 1, hw => exact .inr (.inl ⟨rfl, List.mem_singleton.1 hw⟩)
  | .arr 2, hw => exact .inr (.inr ⟨rfl, (List.mem_pair.1 hw).elim id id⟩)
  | .arr (i + 3), hw => exact absurd hw List.not_mem_nil
  | .obj i, hw => exact absurd hw List.not_mem_nil

def sharedRank : Value → Nat
  | .arr 2 => 2
  | .arr _ => 1
  | _ => 0

theorem treelike_sharedHeap (v : Value) : sharedHeap.Treelike v where
  acyclic := by
    refine acyclic_of_rank sharedRank (fun v w hw => ?_) v
    obtain ⟨rfl, rfl⟩ | ⟨rfl, rfl⟩ | ⟨rfl, rfl⟩ := holds_sharedHeap hw
    · exact Nat.one_pos
    · exact Nat.one_pos
    · exact Nat.lt_succ_self 1
  keys id _ := .nil

theorem reaches_sharedHeap {i : Nat} (hi : i = 1 ∨ i = 2) {v : Value} (hv : sharedHeap.Reaches (.arr i) v) :
    v = .arr 1 ∨ v = .arr 2 ∨ v = .num 1 := by
  induction hv with
  | refl => exact hi.imp (congrArg _) fun htwo => .inl (congrArg _ htwo)
  | tail _ hw ih =>
    obtain ⟨rfl, -⟩ | ⟨-, rfl⟩ | ⟨-, rfl⟩ := holds_sharedHeap hw
    · obtain heq | heq | heq := ih <;> cases heq
    · exact .inr (.inr rfl)
    · exact .inl rfl

theorem nanFree_sharedHeap {i : Nat} (hi : i = 1 ∨ i = 2) : sharedHeap.NaNFree (.arr i) := by
  intro x hx
  obtain heq | heq | heq := reaches_sharedHeap hi hx <;> cases heq
  decide +kernel

theorem holds_apartHeap {v w : Value} (hw : apartHeap.Holds v w) :
    (∃ x, w = .num x) ∨ v = .arr 5 ∧ (w = .arr 2 ∨ w = .arr 3) := by
  match v, hw with
  | .arr 0, hw | .arr 1, hw | .arr 2, hw | .arr 3, hw | .arr 4, hw => exact .inl ⟨_, List.mem_singleton.1 hw⟩
  | .arr 5, hw => exact .inr ⟨rfl, List.mem_pair.1 hw⟩
  | .arr (i + 6), hw => exact absurd hw List.not_mem_nil
  | .obj i, hw => exact absurd hw List.not_mem_nil

theorem reaches_apartHeap {i : Nat} {v : Value} (hv : apartHeap.Reaches (.arr i) v) :
    v = .arr i ∨ i = 5 ∧ (v = .arr 2 ∨ v = .arr 3) ∨ ∃ x, v = .num x := by
  induction hv with
  | refl => exact .inl rfl
  | tail _ hw ih =>
    obtain hnumber | ⟨rfl, hpart⟩ := holds_apartHeap hw
    · exact .inr (.inr hnumber)
    · obtain heq | ⟨-, heq | heq⟩ | ⟨x, heq⟩ := ih <;> cases heq
      exact .inr (.inl ⟨rfl, hpart⟩)

theorem apart_apartHeap {i j : Nat} (hij : i ≠ j) (hj : j ≠ 5) (hi : i = 5 → j ≠ 2 ∧ j ≠ 3) :
    apartHeap.Apart (.arr i) (.arr j) := by
  intro r hr hr'
  have hnumber : ¬ ∃ x, r.value = .num x := fun ⟨x, hx⟩ => by cases r <;> cases hx
  have hsecond : r.value = .arr j :=
    (reaches_apartHeap hr').resolve_right fun hrest => hrest.elim (fun hfive => hj hfive.1) hnumber
  rw [hsecond] at hr hnumber
  obtain heq | ⟨rfl, heq | heq⟩ | hfound := reaches_apartHeap hr
  · exact hij (Value.arr.inj heq).symm
  · exact (hi rfl).1 (Value.arr.inj heq)
  · exact (hi rfl).2 (Value.arr.inj heq)
  · exact hnumber hfound

theorem copied_nan {j : Nat} (hj : apartHeap.items j = #[.num Number.notANumber]) :
    sharedHeap.Copied apartHeap (.arr 0) (.arr j) := copied_single rfl hj nofun

theorem copied_one {j : Nat} (hj : apartHeap.items j = #[.num 1]) : sharedHeap.Copied apartHeap (.arr 1) (.arr j) :=
  copied_single rfl hj nofun

theorem copied_twice : sharedHeap.Copied apartHeap (.arr 2) (.arr 5) := by
  refine .arr rfl fun n hi _ => ?_
  match n, hi with
  | 0, _ | 1, _ => exact copied_one rfl

/-- `[NaN]` is equal to itself and not to its copy. Of `[[1], [1]]` it does not matter that it is the same `[1]` twice. -/
theorem equal_copied_iff_shared :
    ¬ sharedHeap.Clear (.arr 0) (.arr 0) ∧
    apartHeap.binary .eq (.arr 5) (.arr 4) = .ok (.bool false, apartHeap) ∧
    CopiedOutcome sharedHeap apartHeap (ArrayFn.includes.apply sharedHeap [.arr 2, .arr 1])
      (ArrayFn.includes.apply apartHeap [.arr 5, .arr 4]) ∧
    CopiedOutcome sharedHeap apartHeap (ArrayFn.unique.apply sharedHeap [.arr 2])
      (ArrayFn.unique.apply apartHeap [.arr 5]) := by
  obtain ⟨hnan, -⟩ := equal_copied_iff (treelike_sharedHeap (.arr 0)) (treelike_sharedHeap (.arr 0))
    (copied_nan (j := 0) rfl) (copied_nan (j := 1) rfl) (apart_apartHeap (by decide) (by decide) (by decide))
  obtain ⟨-, hoperator, hsearch, hunique⟩ := equal_copied_iff (treelike_sharedHeap (.arr 2)) (treelike_sharedHeap (.arr 1))
    copied_twice (copied_one (j := 4) rfl) (apart_apartHeap (by decide) (by decide) (by decide))
  have hone {b : Value} : sharedHeap.Clear (.arr 1) b := (nanFree_sharedHeap (.inl rfl)).clear
  refine ⟨fun hclear => ?_, ?_, ?_, ?_⟩
  · have hequal : apartHeap.equal (.arr 0) (.arr 1) = true := hnan.2 ⟨by decide +kernel, hclear⟩
    exact absurd hequal (by decide +kernel)
  · obtain ⟨β, hfirst, hsecond⟩ := hoperator (nanFree_sharedHeap (.inr rfl)).clear .eq (.inl rfl)
    have hequal : sharedHeap.equal (.arr 2) (.arr 1) = false := by decide +kernel
    rw [binary, hequal] at hfirst
    cases hfirst
    exact hsecond
  · refine hsearch 2 5 rfl rfl (fun x hx => ?_) _ (by simp)
    obtain rfl | rfl := List.mem_pair.1 (Array.mem_toList_iff.2 hx) <;> exact hone
  · refine hunique 2 5 rfl rfl ?_ ?_
    · exact List.pairwise_pair.2 hone
    · exact List.pairwise_pair.2 (apart_apartHeap (by decide) (by decide) (by decide))

/-- An array with NaN in it is equal to itself but two copies of it are not equal. -/
theorem equal_of_shared_nan : sharedHeap.Treelike (.arr 0) ∧ sharedHeap.Copied apartHeap (.arr 0) (.arr 0) ∧
    sharedHeap.Copied apartHeap (.arr 0) (.arr 1) ∧ apartHeap.Apart (.arr 0) (.arr 1) ∧
    sharedHeap.equal (.arr 0) (.arr 0) = true ∧ apartHeap.equal (.arr 0) (.arr 1) = false :=
  ⟨treelike_sharedHeap _, copied_nan rfl, copied_nan rfl, apart_apartHeap (by decide) (by decide) (by decide),
    by decide +kernel, by decide +kernel⟩

end Heap

end DeskScript
