import DeskScript.Proofs.Value.Unfolding
import Mathlib.Data.List.Nodup
import Mathlib.Data.List.Perm.Subperm

set_option autoImplicit false

/-!
# Equality of values

Two values are compared level by level, and a collection is equal to itself at once. Where no collection is inside itself
this ends before the count of collections is used up, and equality is symmetric and transitive. Where there is no NaN it
does not matter what is shared: two values are equal if and only if they are the same when written out. Main statement:
`Heap.equal_laws`.
-/

namespace DeskScript

namespace Number

open Float.Model Float.Model.UnpackedFloat

inductive Level : UnpackedFloat → UnpackedFloat → Prop where
  | infinity (sign : Sign) : Level (.infinity sign) (.infinity sign)
  | zero (sign sign' : Sign) : Level (.zero sign) (.zero sign')
  | finite (sign : Sign) (m : Nat) (e : Int) (hm hm' : 0 < m) : Level (.finite sign m e hm) (.finite sign m e hm')

theorem level_of_order {sign : Sign} {m m' : Nat} {e e' : Int} (hm : 0 < m) (hm' : 0 < m')
    (horder : (compare e e').then (compare m m') = .eq) : Level (.finite sign m e hm) (.finite sign m' e' hm') := by
  obtain ⟨he, hmantissa⟩ := Ordering.then_eq_eq.1 horder
  obtain rfl := Int.compare_eq_eq.1 he
  obtain rfl := Nat.compare_eq_eq.1 hmantissa
  exact .finite sign m e hm hm'

theorem level_of_compare {u w : UnpackedFloat} (heq : u.compare w = some .eq) : Level u w := by
  cases u with
  | notANumber => cases heq
  | infinity s =>
    cases w with
    | infinity t => cases s <;> cases t <;> first | exact .infinity _ | cases heq
    | notANumber | zero _ | finite _ _ _ _ => cases s <;> cases heq
  | zero s =>
    cases w with
    | zero t => exact .zero s t
    | notANumber => cases heq
    | infinity t | finite t _ _ _ => cases t <;> cases heq
  | finite s m e hm =>
    cases w with
    | notANumber => cases heq
    | zero _ => cases s <;> cases heq
    | infinity t => cases t <;> cases heq
    | finite t m' e' hm' =>
      cases s with
      | negative =>
        cases t with
        | negative => exact level_of_order hm hm' (Ordering.swap_eq_eq.1 (Option.some.inj heq))
        | positive => cases heq
      | positive =>
        cases t with
        | negative => cases heq
        | positive => exact level_of_order hm hm' (Option.some.inj heq)

theorem Level.compare {u w : UnpackedFloat} (hlevel : Level u w) : u.compare w = some .eq := by
  cases hlevel with
  | infinity s => cases s <;> rfl
  | zero s t => rfl
  | finite s m e hm hm' =>
    have horder : (Ord.compare e e).then (Ord.compare m m) = .eq :=
      Ordering.then_eq_eq.2 ⟨Int.compare_eq_eq.2 rfl, Nat.compare_eq_eq.2 rfl⟩
    cases s with
    | negative => exact congrArg some (Ordering.swap_eq_eq.2 horder)
    | positive => exact congrArg some horder

theorem Level.symm {u w : UnpackedFloat} (hlevel : Level u w) : Level w u := by
  cases hlevel with
  | infinity s => exact .infinity s
  | zero s t => exact .zero t s
  | finite s m e hm hm' => exact .finite s m e hm' hm

theorem Level.trans {u v w : UnpackedFloat} (hfirst : Level u v) (hthen : Level v w) : Level u w := by
  cases hfirst with
  | infinity s => exact hthen
  | zero s t =>
    cases hthen with
    | zero _ t' => exact .zero s t'
  | finite s m e hm hm' => exact hthen

theorem Level.refl {u : UnpackedFloat} (hu : u.isNaN = false) : Level u u := by
  cases u with
  | notANumber => cases hu
  | infinity s => exact .infinity s
  | zero s => exact .zero s s
  | finite s m e hm => exact .finite s m e hm hm

theorem beq_iff (x y : Float) : (x == y) = true ↔ Level x.toModel.unpack y.toModel.unpack := by
  change (x.toModel.unpack.compare y.toModel.unpack == some .eq) = true ↔ _
  rw [beq_iff_eq]
  exact ⟨level_of_compare, Level.compare⟩

theorem beq_symm {x y : Float} (hxy : (x == y) = true) : (y == x) = true := by
  rw [beq_iff] at hxy ⊢
  exact hxy.symm

theorem beq_trans {x y z : Float} (hxy : (x == y) = true) (hyz : (y == z) = true) : (x == z) = true := by
  rw [beq_iff] at hxy hyz ⊢
  exact hxy.trans hyz

theorem beq_self {x : Float} (hx : x.isNaN = false) : (x == x) = true := by
  rw [beq_iff]
  exact .refl hx

end Number

theorem all_zip_iff {α : Type} (p : α → α → Bool) (xs ys : List α) :
    ((xs.zip ys).all fun (x, y) => p x y) = true ↔
      ∀ n (hx : n < xs.length) (hy : n < ys.length), p xs[n] ys[n] = true := by
  rw [List.all_eq_true, List.forall_mem_iff_getElem]
  simp only [List.length_zip, Nat.lt_min, List.getElem_zip]
  exact ⟨fun hall n hx hy => hall n ⟨hx, hy⟩, fun hall n hn => hall n hn.1 hn.2⟩

namespace Dict

variable {α : Type} {d e : Dict α}

/-- A dictionary is compared to another by its own entries and by the number of them. As keys are distinct, the other one
has no more. -/
theorem all_iff {P : α → α → Prop} {passes : String × α → Bool}
    (hpasses : ∀ k x, passes (k, x) = true ↔ ∃ y, e.get? k = some y ∧ P x y) (hd : d.keys.Nodup) (he : e.keys.Nodup) :
    (d.length == e.length && d.all passes) = true ↔
      (∀ k, k ∈ d.keys ↔ k ∈ e.keys) ∧ ∀ k x y, d.get? k = some x → e.get? k = some y → P x y := by
  have hlengths : d.length = e.length ↔ d.keys.length = e.keys.length := by
    rw [keys, keys, List.length_map, List.length_map]
  rw [Bool.and_eq_true, beq_iff_eq, List.all_eq_true, hlengths]
  constructor
  · rintro ⟨hlength, hall⟩
    have hentry {k : String} {x : α} (hx : d.get? k = some x) : ∃ y, e.get? k = some y ∧ P x y :=
      (hpasses k x).1 (hall (k, x) (mem_of_get? hx))
    have hsubset : d.keys ⊆ e.keys := by
      intro k hk
      obtain ⟨x, hx⟩ := mem_keys_iff.1 hk
      obtain ⟨y, hy, -⟩ := hentry hx
      exact mem_keys_iff.2 ⟨y, hy⟩
    have hperm : d.keys.Perm e.keys :=
      (List.subperm_of_subset hd hsubset).perm_of_length_le (Nat.le_of_eq hlength.symm)
    refine ⟨fun k => hperm.mem_iff, fun k x y hx hy => ?_⟩
    obtain ⟨y', hy', hxy⟩ := hentry hx
    cases hy.symm.trans hy'
    exact hxy
  · rintro ⟨hkeys, hvalues⟩
    refine ⟨((List.perm_ext_iff_of_nodup hd he).2 hkeys).length_eq, ?_⟩
    rintro ⟨k, x⟩ hmem
    have hx := get?_of_mem hd hmem
    obtain ⟨y, hy⟩ := mem_keys_iff.1 ((hkeys k).1 (mem_keys_iff.2 ⟨x, hx⟩))
    exact (hpasses k x).2 ⟨y, hy, hvalues k x y hx hy⟩

end Dict

namespace Heap

variable {h : Heap} {a b c : Value} {E F : Value → Value → Prop} {above : List Ref}

theorem holds_item {i n : Nat} (hn : n < (h.items i).size) : h.Holds (.arr i) (h.items i)[n] :=
  Array.mem_toList_iff.2 (Array.getElem_mem hn)

theorem holds_field {i : Nat} {k : String} {x : Value} (hx : (h.fields i).get? k = some x) : h.Holds (.obj i) x :=
  List.mem_map.2 ⟨_, Dict.mem_of_get? hx, rfl⟩

/-- Two values are of the same kind, and they are equal constants, arrays of the same length or objects with the same
keys, with parts at the same places that are as `E` says. -/
inductive Alike (h : Heap) (E : Value → Value → Prop) : Value → Value → Prop where
  | null : Alike h E .null .null
  | bool (b : Bool) : Alike h E (.bool b) (.bool b)
  | num {x y : Float} (hxy : (x == y) = true) : Alike h E (.num x) (.num y)
  | str (s : String) : Alike h E (.str s) (.str s)
  | arr {i j : Nat} (hsize : (h.items i).size = (h.items j).size)
      (hitems : ∀ n (hi : n < (h.items i).size) (hj : n < (h.items j).size), E (h.items i)[n] (h.items j)[n]) :
      Alike h E (.arr i) (.arr j)
  | obj {i j : Nat} (hkeys : ∀ k, k ∈ (h.fields i).keys ↔ k ∈ (h.fields j).keys)
      (hvalues : ∀ k x y, (h.fields i).get? k = some x → (h.fields j).get? k = some y → E x y) :
      Alike h E (.obj i) (.obj j)

inductive Same (h : Heap) : Value → Value → Prop where
  | of {a b : Value} (halike : Alike h (Same h) a b) : Same h a b

theorem Alike.imp (halike : h.Alike E a b) (himp : ∀ x y, h.Holds a x → h.Holds b y → E x y → F x y) :
    h.Alike F a b := by
  cases halike with
  | null => exact .null
  | bool b => exact .bool b
  | num hxy => exact .num hxy
  | str s => exact .str s
  | arr hsize hitems => exact .arr hsize fun n hi hj => himp _ _ (holds_item hi) (holds_item hj) (hitems n hi hj)
  | obj hkeys hvalues =>
    exact .obj hkeys fun k x y hx hy => himp x y (holds_field hx) (holds_field hy) (hvalues k x y hx hy)

theorem Alike.congr (hiff : ∀ x y, h.Holds a x → h.Holds b y → (E x y ↔ F x y)) : h.Alike E a b ↔ h.Alike F a b :=
  ⟨fun halike => halike.imp fun x y hx hy => (hiff x y hx hy).1,
    fun halike => halike.imp fun x y hx hy => (hiff x y hx hy).2⟩

theorem Alike.refl (hnumber : ∀ x, a = .num x → x.isNaN = false) (hparts : ∀ x, h.Holds a x → E x x) :
    h.Alike E a a := by
  cases a with
  | null => exact .null
  | bool b => exact .bool b
  | num x => exact .num (Number.beq_self (hnumber x rfl))
  | str s => exact .str s
  | arr i => exact .arr rfl fun n hi _ => hparts _ (holds_item hi)
  | obj i =>
    refine .obj (fun _ => .rfl) fun k x y hx hy => ?_
    cases hx.symm.trans hy
    exact hparts x (holds_field hx)

theorem Alike.symm (halike : h.Alike E a b) : h.Alike (fun y x => E x y) b a := by
  cases halike with
  | null => exact .null
  | bool b => exact .bool b
  | num hxy => exact .num (Number.beq_symm hxy)
  | str s => exact .str s
  | arr hsize hitems => exact .arr hsize.symm fun n hi hj => hitems n hj hi
  | obj hkeys hvalues => exact .obj (fun k => (hkeys k).symm) fun k y x hy hx => hvalues k x y hx hy

theorem Alike.trans (hab : h.Alike E a b) (hbc : h.Alike F b c) :
    h.Alike (fun x z => ∃ y, h.Holds b y ∧ E x y ∧ F y z) a c := by
  cases hab with
  | null => cases hbc; exact .null
  | bool b => cases hbc; exact .bool b
  | num hxy =>
    cases hbc with
    | num hyz => exact .num (Number.beq_trans hxy hyz)
  | str s => cases hbc; exact .str s
  | arr hsize hitems =>
    cases hbc with
    | arr hsize' hitems' =>
      refine .arr (hsize.trans hsize') fun n hi hk => ?_
      have hj := hsize ▸ hi
      exact ⟨_, holds_item hj, hitems n hi hj, hitems' n hj hk⟩
  | obj hkeys hvalues =>
    cases hbc with
    | obj hkeys' hvalues' =>
      refine .obj (fun k => (hkeys k).trans (hkeys' k)) fun k x z hx hz => ?_
      obtain ⟨y, hy⟩ := Dict.mem_keys_iff.1 ((hkeys k).1 (Dict.mem_keys_iff.2 ⟨x, hx⟩))
      exact ⟨y, holds_field hy, hvalues k x y hx hy, hvalues' k y z hy hz⟩

def compared (h : Heap) (above : List Ref) (a b : Value) : Bool := h.equalWithin (h.size + 1 - above.length) a b

theorem compared_constant (above : List Ref) (hconstant : ∀ r : Ref, a ≠ r.value) :
    h.compared above a b = true ↔ h.Alike E a b := by
  unfold compared
  cases a with
  | null =>
    cases b with
    | null => exact iff_of_true (by simp [equalWithin]) .null
    | _ => exact iff_of_false (by simp [equalWithin]) nofun
  | bool x =>
    cases b with
    | bool y =>
      simp only [equalWithin, beq_iff_eq]
      refine ⟨fun heq => heq ▸ .bool x, fun halike => ?_⟩
      cases halike
      rfl
    | _ => exact iff_of_false (by simp [equalWithin]) nofun
  | num x =>
    cases b with
    | num y =>
      simp only [equalWithin]
      refine ⟨.num, fun halike => ?_⟩
      cases halike
      assumption
    | _ => exact iff_of_false (by simp [equalWithin]) nofun
  | str x =>
    cases b with
    | str y =>
      simp only [equalWithin, beq_iff_eq]
      refine ⟨fun heq => heq ▸ .str x, fun halike => ?_⟩
      cases halike
      rfl
    | _ => exact iff_of_false (by simp [equalWithin]) nofun
  | arr i => exact absurd rfl (hconstant (.arr i))
  | obj i => exact absurd rfl (hconstant (.obj i))

theorem compared_collection {r : Ref} (hpath : h.Path above r.value) (hr : h.Treelike r.value) (hb : h.Treelike b) :
    h.compared above r.value b = true ↔
      b = r.value ∨ h.Alike (fun x y => h.compared (r :: above) x y = true) r.value b := by
  unfold compared
  rw [hpath.budget, budget_cons]
  cases r with
  | arr i =>
    cases b with
    | arr j =>
      rw [Ref.value, equalWithin]
      by_cases hij : i = j
      · rw [if_pos hij, hij]
        exact iff_of_true rfl (.inl rfl)
      rw [if_neg hij]
      dsimp only
      rw [Bool.and_eq_true, beq_iff_eq, all_zip_iff]
      constructor
      · rintro ⟨hsize, hitems⟩
        exact .inr (.arr hsize hitems)
      · rintro (heq | halike)
        · exact absurd (Value.arr.inj heq).symm hij
        · cases halike with
          | arr hsize hitems => exact ⟨hsize, hitems⟩
    | _ => exact iff_of_false (by simp [Ref.value, equalWithin]) (by rintro (heq | halike) <;> contradiction)
  | obj i =>
    cases b with
    | obj j =>
      rw [Ref.value, equalWithin]
      by_cases hij : i = j
      · rw [if_pos hij, hij]
        exact iff_of_true rfl (.inl rfl)
      rw [if_neg hij]
      rw [Dict.all_iff (P := fun x y => h.equalWithin (h.size - above.length) x y = true) ?entry (hr.keys i .refl)
        (hb.keys j .refl)]
      case entry =>
        intro k x
        dsimp only
        cases (h.fields j).get? k <;> simp
      constructor
      · rintro ⟨hkeys, hvalues⟩
        exact .inr (.obj hkeys hvalues)
      · rintro (heq | halike)
        · exact absurd (Value.obj.inj heq).symm hij
        · cases halike with
          | obj hkeys hvalues => exact ⟨hkeys, hvalues⟩
    | _ => exact iff_of_false (by simp [Ref.value, equalWithin]) (by rintro (heq | halike) <;> contradiction)

/-- It does not matter on which way the values are met. -/
theorem compared_path {above' : List Ref} (hpath : h.Path above a) (hpath' : h.Path above' a) (ha : h.Treelike a)
    (hb : h.Treelike b) : h.compared above a b = true ↔ h.compared above' a b = true := by
  refine hpath.induction (motive := fun above a => ∀ above' b, h.Path above' a → h.Treelike a → h.Treelike b →
    (h.compared above a b = true ↔ h.compared above' a b = true)) ?constant ?collection above' b hpath' ha hb
  case constant =>
    intro above a hconstant above' b _ _ _
    rw [compared_constant (E := fun _ _ => True) above hconstant, compared_constant above' hconstant]
  case collection =>
    intro above r hpath hparts above' b hpath' hr hb
    rw [compared_collection hpath hr hb, compared_collection hpath' hr hb]
    refine or_congr_right (Alike.congr fun x y hx hy => ?_)
    exact hparts (hpath.not_mem hr.acyclic) x hx (r :: above') y (hpath'.part hr.acyclic hx) (hr.part hx) (hb.part hy)

/-- Values are equal if they are the same collection or if they are alike with equal parts. -/
theorem equal_iff (ha : h.Treelike a) (hb : h.Treelike b) : h.equal a b = true ↔
    (∃ r : Ref, a = r.value ∧ b = r.value) ∨ h.Alike (fun x y => h.equal x y = true) a b := by
  change h.compared [] a b = true ↔ _
  by_cases hcollection : ∃ r : Ref, a = r.value
  · obtain ⟨r, rfl⟩ := hcollection
    rw [compared_collection .nil ha hb]
    refine or_congr ⟨fun heq => ⟨r, rfl, heq⟩, ?_⟩ (Alike.congr fun x y hx hy => ?_)
    · rintro ⟨r', hr, hb⟩
      rw [hb, hr]
    · exact compared_path (Path.nil.part ha.acyclic hx) .nil (ha.part hx) (hb.part hy)
  · have hconstant : ∀ r : Ref, a ≠ r.value := fun r hr => hcollection ⟨r, hr⟩
    rw [compared_constant [] hconstant]
    exact ⟨.inr, fun h => h.resolve_left fun ⟨r, hr, _⟩ => hconstant r hr⟩

def NaNFree (h : Heap) (v : Value) : Prop := ∀ x, h.Reaches v (.num x) → x.isNaN = false

theorem NaNFree.part {v w : Value} (hv : h.NaNFree v) (hw : h.Holds v w) : h.NaNFree w := fun x hx =>
  hv x (.head hw hx)

theorem nanFree_of_holds {v : Value} (hv : ∀ x, v ≠ .num x) (hnumbers : ∀ w x, h.Holds w (.num x) → x.isNaN = false) :
    h.NaNFree v := by
  intro x hx
  obtain heq | ⟨w, -, hw⟩ := Relation.ReflTransGen.cases_tail hx
  · exact absurd heq.symm (hv x)
  · exact hnumbers w x hw

theorem NaNFree.number {v : Value} (hv : h.NaNFree v) (x : Float) (hx : v = .num x) : x.isNaN = false :=
  hv x (hx ▸ .refl)

theorem equal_symm (ha : h.Treelike a) (hb : h.Treelike b) (hab : h.equal a b = true) : h.equal b a = true := by
  refine ha.induction (motive := fun a => ∀ b, h.Treelike b → h.equal a b = true → h.equal b a = true) ?_ b hb hab
  intro a ha hparts b hb hab
  obtain ⟨r, rfl, rfl⟩ | halike := (equal_iff ha hb).1 hab
  · exact hab
  · exact (equal_iff hb ha).2 (.inr (halike.symm.imp fun y x hy hx => hparts x hx y (hb.part hy)))

theorem equal_trans (ha : h.Treelike a) (hb : h.Treelike b) (hc : h.Treelike c) (hab : h.equal a b = true)
    (hbc : h.equal b c = true) : h.equal a c = true := by
  refine ha.induction (motive := fun a => ∀ b c, h.Treelike b → h.Treelike c → h.equal a b = true →
    h.equal b c = true → h.equal a c = true) ?_ b c hb hc hab hbc
  intro a ha hparts b c hb hc hab hbc
  obtain ⟨r, rfl, rfl⟩ | halike := (equal_iff ha hb).1 hab
  · exact hbc
  obtain ⟨r, rfl, rfl⟩ | halike' := (equal_iff hb hc).1 hbc
  · exact hab
  refine (equal_iff ha hc).2 (.inr ((halike.trans halike').imp ?_))
  rintro x z hx hz ⟨y, hy, hxy, hyz⟩
  exact hparts x hx y z (hb.part hy) (hc.part hz) hxy hyz

theorem Same.refl (ha : h.Treelike a) (hfree : h.NaNFree a) : h.Same a a := by
  refine ha.induction (motive := fun a => h.NaNFree a → h.Same a a) ?_ hfree
  intro a ha hparts hfree
  exact .of (.refl hfree.number fun x hx => hparts x hx (hfree.part hx))

theorem equal_iff_same (ha : h.Treelike a) (hb : h.Treelike b) (hfree : h.NaNFree a) :
    h.equal a b = true ↔ h.Same a b := by
  refine ha.induction (motive := fun a => h.NaNFree a → ∀ b, h.Treelike b → (h.equal a b = true ↔ h.Same a b)) ?_
    hfree b hb
  intro a ha hparts hfree b hb
  rw [equal_iff ha hb]
  constructor
  · rintro (⟨r, rfl, rfl⟩ | halike)
    · exact .refl ha hfree
    · exact .of (halike.imp fun x y hx hy => (hparts x hx (hfree.part hx) y (hb.part hy)).1)
  · rintro ⟨halike⟩
    exact .inr (halike.imp fun x y hx hy => (hparts x hx (hfree.part hx) y (hb.part hy)).2)

theorem equal_kind (hab : h.equal a b = true) : a.kind = b.kind := by
  unfold equal at hab
  cases a <;> cases b <;> first | rfl | simp [equalWithin] at hab

/-- Equality of values without cycles is symmetric and transitive, and values of different kinds are never equal. If there
is no NaN in a value it is equal to itself, and it is equal to what is the same when written out: whatever the order of
the keys and whichever parts are shared. -/
theorem equal_laws (ha : h.Treelike a) (hb : h.Treelike b) (hc : h.Treelike c) :
    h.equal a b = h.equal b a ∧
    (h.equal a b = true → h.equal b c = true → h.equal a c = true) ∧
    (a.kind ≠ b.kind → h.equal a b = false) ∧
    (h.NaNFree a → h.equal a a = true ∧ (h.equal a b = true ↔ h.Same a b)) := by
  refine ⟨Bool.eq_iff_iff.2 ⟨equal_symm ha hb, equal_symm hb ha⟩, equal_trans ha hb hc, ?_, ?_⟩
  · intro hkind
    exact Bool.eq_false_iff.2 fun hab => hkind (equal_kind hab)
  · intro hfree
    exact ⟨(equal_iff_same ha ha hfree).2 (.refl ha hfree), equal_iff_same ha hb hfree⟩

def twinHeap : Heap where
  arrays := #[#[.num 0], #[.num (-0)]]
  objects := #[[("p", .arr 0), ("q", .arr 0)], [("q", .arr 1), ("p", .arr 0)], [("p", .arr 1), ("q", .arr 1)]]

theorem holds_twinHeap {v w : Value} (hw : twinHeap.Holds v w) :
    (∃ i, v = .obj i) ∧ (w = .arr 0 ∨ w = .arr 1) ∨ (∃ i, v = .arr i) ∧ (w = .num 0 ∨ w = .num (-0)) := by
  match v, hw with
  | .obj 0, hw => exact .inl ⟨⟨0, rfl⟩, .inl ((List.mem_pair.1 hw).elim id id)⟩
  | .obj 1, hw => exact .inl ⟨⟨1, rfl⟩, (List.mem_pair.1 hw).symm⟩
  | .obj 2, hw => exact .inl ⟨⟨2, rfl⟩, .inr ((List.mem_pair.1 hw).elim id id)⟩
  | .arr 0, hw => exact .inr ⟨⟨0, rfl⟩, .inl (List.mem_singleton.1 hw)⟩
  | .arr 1, hw => exact .inr ⟨⟨1, rfl⟩, .inr (List.mem_singleton.1 hw)⟩
  | .obj (i + 3), hw => exact absurd hw List.not_mem_nil
  | .arr (i + 2), hw => exact absurd hw List.not_mem_nil

def twinRank : Value → Nat
  | .obj _ => 2
  | .arr _ => 1
  | _ => 0

theorem treelike_twinHeap (v : Value) : twinHeap.Treelike v where
  acyclic := by
    refine acyclic_of_rank twinRank (fun v w hw => ?_) v
    obtain ⟨⟨i, rfl⟩, rfl | rfl⟩ | ⟨⟨i, rfl⟩, rfl | rfl⟩ := holds_twinHeap hw
    · exact Nat.lt_succ_self 1
    · exact Nat.lt_succ_self 1
    · exact Nat.one_pos
    · exact Nat.one_pos
  keys id _ := by
    match id with
    | 0 | 1 | 2 => decide
    | id + 3 => exact .nil

theorem nanFree_twinHeap (i : Nat) : twinHeap.NaNFree (.obj i) := by
  refine nanFree_of_holds nofun fun w x hw => ?_
  obtain ⟨-, hw | hw⟩ | ⟨-, hw | hw⟩ := holds_twinHeap hw <;> cases hw
  · decide +kernel
  · decide +kernel

/-- The first object is equal to the last because both are equal to the second. None is equal to an array. -/
theorem equal_laws_twins : twinHeap.equal (.obj 0) (.obj 2) = true ∧ twinHeap.equal (.obj 2) (.obj 1) = true ∧
    twinHeap.Same (.obj 0) (.obj 1) ∧ twinHeap.equal (.obj 0) (.arr 0) = false := by
  have hfirst : twinHeap.equal (.obj 0) (.obj 1) = true := by decide +kernel
  have hthen : twinHeap.equal (.obj 1) (.obj 2) = true := by decide +kernel
  obtain ⟨-, htrans, -, hsame⟩ :=
    equal_laws (treelike_twinHeap (.obj 0)) (treelike_twinHeap (.obj 1)) (treelike_twinHeap (.obj 2))
  obtain ⟨hsymm, -⟩ :=
    equal_laws (treelike_twinHeap (.obj 2)) (treelike_twinHeap (.obj 1)) (treelike_twinHeap .null)
  obtain ⟨-, -, hkind, -⟩ :=
    equal_laws (treelike_twinHeap (.obj 0)) (treelike_twinHeap (.arr 0)) (treelike_twinHeap .null)
  exact ⟨htrans hfirst hthen, hsymm.trans hthen, ((hsame (nanFree_twinHeap 0)).2).1 hfirst, hkind (by decide)⟩

end Heap

end DeskScript
