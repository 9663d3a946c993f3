import DeskScript.Proofs.Number.Written
import DeskScript.Proofs.Value.Unfolding

set_option autoImplicit false

/-!
# Plain data becomes a value again

The plain data of a sound tree is made into a value on any heap. The new value mirrors the one that the tree was unfolded
from: the same kinds, the same order, the same keys, texts and numbers, except that a negative zero has lost its sign.
Main statement: `Heap.restores_unfold`.
-/

namespace DeskScript

namespace Heap

variable {h g g' g'' : Heap} {v w : Value}

structure Extends (g g' : Heap) : Prop where
  arrays : g.arrays.size ≤ g'.arrays.size
  objects : g.objects.size ≤ g'.objects.size
  items : ∀ id < g.arrays.size, g'.items id = g.items id
  fields : ∀ id < g.objects.size, g'.fields id = g.fields id

theorem Extends.refl (g : Heap) : g.Extends g := ⟨Nat.le_refl _, Nat.le_refl _, fun _ _ => rfl, fun _ _ => rfl⟩

theorem Extends.trans (hfirst : g.Extends g') (hthen : g'.Extends g'') : g.Extends g'' where
  arrays := Nat.le_trans hfirst.arrays hthen.arrays
  objects := Nat.le_trans hfirst.objects hthen.objects
  items id hid := (hthen.items id (Nat.lt_of_lt_of_le hid hfirst.arrays)).trans (hfirst.items id hid)
  fields id hid := (hthen.fields id (Nat.lt_of_lt_of_le hid hfirst.objects)).trans (hfirst.fields id hid)

theorem extends_newArray (g : Heap) (items : Array Value) : g.Extends (g.newArray items).2 where
  arrays := by simp [newArray]
  objects := Nat.le_refl _
  items id hid := items_newArray g items id hid
  fields id _ := fields_newArray g items id

theorem extends_newObject (g : Heap) (fields : Dict Value) : g.Extends (g.newObject fields).2 where
  arrays := Nat.le_refl _
  objects := by simp [newObject]
  items id _ := items_newObject g fields id
  fields id hid := fields_newObject g fields id hid

/-- A value of the second heap has the structure of a value of the first. Zero stands for zero of either sign. -/
inductive Mirrors (h g : Heap) : Value → Value → Prop where
  | null : Mirrors h g .null .null
  | bool (b : Bool) : Mirrors h g (.bool b) (.bool b)
  | num (x : Float) : Mirrors h g (.num x) (.num (if x == 0 then 0 else x))
  | str (s : String) : Mirrors h g (.str s) (.str s)
  | arr {a b : Nat} (hlive : b < g.arrays.size) (hsize : (g.items b).size = (h.items a).size)
      (hitems : ∀ v w, (v, w) ∈ (h.items a).toList.zip (g.items b).toList → Mirrors h g v w) :
      Mirrors h g (.arr a) (.arr b)
  | obj {a b : Nat} (hlive : b < g.objects.size) (hkeys : (g.fields b).keys = (h.fields a).keys)
      (hvalues : ∀ v w, (v, w) ∈ (h.fields a).values.zip (g.fields b).values → Mirrors h g v w) :
      Mirrors h g (.obj a) (.obj b)

theorem Mirrors.mono (hmirrors : h.Mirrors g v w) (hextends : g.Extends g') : h.Mirrors g' v w := by
  induction hmirrors with
  | null => exact .null
  | bool b => exact .bool b
  | num x => exact .num x
  | str s => exact .str s
  | arr hlive hsize _ ih =>
    have hsame := hextends.items _ hlive
    exact .arr (Nat.lt_of_lt_of_le hlive hextends.arrays) (hsame ▸ hsize) fun v w hvw => ih v w (hsame ▸ hvw)
  | obj hlive hkeys _ ih =>
    have hsame := hextends.fields _ hlive
    exact .obj (Nat.lt_of_lt_of_le hlive hextends.objects) (hsame ▸ hkeys) fun v w hvw => ih v w (hsame ▸ hvw)

def Restores (h : Heap) (v : Value) (p : Plain) : Prop :=
  ∀ g : Heap, ∃ w g', g.ofPlain p = .ok (w, g') ∧ h.Mirrors g' v w ∧ g.Extends g'

theorem restores_items {f : Value → Tree} (vs : List Value) (hall : ∀ v ∈ vs, h.Restores v (f v).plain) (g : Heap)
    (done : Array Value) : ∃ ws g', g.ofPlainItems done (Tree.plainItems (vs.map f)) = .ok (done ++ List.toArray ws, g') ∧
      ws.length = vs.length ∧ (∀ v w, (v, w) ∈ vs.zip ws → h.Mirrors g' v w) ∧ g.Extends g' := by
  induction vs generalizing g done with
  | nil => exact ⟨[], g, by simp [Tree.plainItems, ofPlainItems], rfl, nofun, .refl g⟩
  | cons v vs ih =>
    obtain ⟨hv, hvs⟩ := List.forall_mem_cons.1 hall
    obtain ⟨w, g', hplain, hmirrors, hextends⟩ := hv g
    obtain ⟨ws, g'', hrest, hlength, hall, hthen⟩ := ih hvs g' (done.push w)
    refine ⟨w :: ws, g'', ?_, congrArg Nat.succ hlength, ?_, hextends.trans hthen⟩
    · rw [List.map_cons, Tree.plainItems, ofPlainItems, hplain]
      dsimp only
      rw [hrest]
      simp
    · intro u u' hu
      rw [List.zip_cons_cons] at hu
      rcases List.mem_cons.1 hu with heq | hu
      · obtain ⟨rfl, rfl⟩ := Prod.mk.inj heq
        exact hmirrors.mono hthen
      · exact hall u u' hu

theorem restores_entries {f : Value → Tree} (entries : Dict Value)
    (hall : ∀ v ∈ entries.values, h.Restores v (f v).plain) (g : Heap) (done : Dict Value)
    (hkeys : (done.keys ++ entries.keys).Nodup) :
    ∃ news g', g.ofPlainEntries done (Tree.plainEntries (entries.map fun (k, v) => (k, f v))) = .ok (done ++ news, g') ∧
      Dict.keys news = entries.keys ∧ (∀ v w, (v, w) ∈ entries.values.zip (Dict.values news) → h.Mirrors g' v w) ∧
      g.Extends g' := by
  induction entries generalizing g done with
  | nil => exact ⟨[], g, by simp [Tree.plainEntries, ofPlainEntries], rfl, nofun, .refl g⟩
  | cons e entries ih =>
    obtain ⟨k, v⟩ := e
    obtain ⟨hv, hvs⟩ := List.forall_mem_cons.1 hall
    obtain ⟨w, g', hplain, hmirrors, hextends⟩ := hv g
    have hnew : k ∉ done.keys := fun hk => (List.nodup_append.1 hkeys).2.2 k hk k List.mem_cons_self rfl
    have hkeys : (Dict.keys (done ++ [(k, w)]) ++ Dict.keys entries).Nodup := by
      rw [Dict.keys, List.map_append, List.append_assoc]
      exact hkeys
    obtain ⟨news, g'', hrest, hsame, hall, hthen⟩ := ih hvs g' (done ++ [(k, w)]) hkeys
    refine ⟨(k, w) :: news, g'', ?_, congrArg (k :: ·) hsame, ?_, hextends.trans hthen⟩
    · rw [List.map_cons, Tree.plainEntries, ofPlainEntries, hplain]
      dsimp only
      rw [Dict.insert_of_not_mem hnew, hrest, List.append_assoc]
      rfl
    · intro u u' hu
      rcases List.mem_cons.1 hu with heq | hu
      · obtain ⟨rfl, rfl⟩ := Prod.mk.inj heq
        exact hmirrors.mono hthen
      · exact hall u u' hu

theorem restores_num (x : Float) : h.Restores (.num x) (Plain.ofFloat x) := by
  intro g
  refine ⟨.num (if x == 0 then 0 else x), g, ?_, .num x, .refl g⟩
  unfold Plain.ofFloat
  split
  · rename_i hintegral
    rw [ofPlain, Number.ofInt?_truncated_of_integral hintegral]
  · rename_i hintegral
    rw [ofPlain, if_neg fun hzero => hintegral (Number.isIntegral_of_zero hzero)]

theorem restores_constant {fuel : Nat} {above : List Ref} (hconstant : ∀ r : Ref, v ≠ r.value) :
    h.Restores v (h.unfold fuel above v).plain := by
  cases v with
  | null =>
    rw [unfold]
    exact fun g => ⟨.null, g, rfl, .null, .refl g⟩
  | bool b =>
    rw [unfold]
    exact fun g => ⟨.bool b, g, rfl, .bool b, .refl g⟩
  | num x =>
    rw [unfold]
    exact restores_num x
  | str s =>
    rw [unfold]
    exact fun g => ⟨.str s, g, rfl, .str s, .refl g⟩
  | arr id => exact absurd rfl (hconstant (.arr id))
  | obj id => exact absurd rfl (hconstant (.obj id))

theorem restores_array {id : Nat} {f : Value → Tree} (hall : ∀ v ∈ h.items id, h.Restores v (f v).plain) :
    h.Restores (.arr id) (Tree.list ((h.items id).toList.map f)).plain := by
  intro g
  obtain ⟨ws, g', hplain, hlength, hmirrors, hextends⟩ :=
    restores_items (h.items id).toList (fun v hv => hall v (Array.mem_toList_iff.1 hv)) g #[]
  have hnew := items_newArray_self g' ws.toArray
  rw [Array.empty_append] at hplain
  refine ⟨.arr g'.arrays.size, (g'.newArray ws.toArray).2, ?_, ?_, hextends.trans (extends_newArray g' ws.toArray)⟩
  · rw [Tree.plain, ofPlain, hplain]
    rfl
  · refine .arr (by simp [newArray]) (by rw [hnew]; exact hlength) fun v w hvw => ?_
    rw [hnew] at hvw
    exact (hmirrors v w hvw).mono (extends_newArray g' ws.toArray)

theorem restores_object {id : Nat} {f : Value → Tree} (hkeys : (h.fields id).keys.Nodup)
    (hall : ∀ v ∈ (h.fields id).values, h.Restores v (f v).plain) :
    h.Restores (.obj id) (Tree.dict ((h.fields id).map fun (k, v) => (k, f v))).plain := by
  intro g
  obtain ⟨news, g', hplain, hsame, hmirrors, hextends⟩ := restores_entries (h.fields id) hall g [] hkeys
  have hnew := fields_newObject_self g' news
  refine ⟨.obj g'.objects.size, (g'.newObject news).2, ?_, ?_, hextends.trans (extends_newObject g' news)⟩
  · rw [Tree.plain, ofPlain, hplain]
    rfl
  · refine .obj (by simp [newObject]) (by rw [hnew]; exact hsame) fun v w hvw => ?_
    rw [hnew] at hvw
    exact (hmirrors v w hvw).mono (extends_newObject g' news)

theorem restores_ref {P : Float → Prop} {fuel : Nat} {above : List Ref} {r : Ref}
    (hsound : (h.unfold (fuel + 1) above r.value).Sound P)
    (hpart : ∀ w, (h.unfold fuel (r :: above) w).Sound P → h.Restores w (h.unfold fuel (r :: above) w).plain) :
    h.Restores r.value (h.unfold (fuel + 1) above r.value).plain := by
  cases r with
  | arr id =>
    rw [Ref.value, unfold] at hsound ⊢
    split at hsound
    · cases hsound
    · rename_i hnew
      rw [if_neg hnew]
      cases hsound with
      | list hall =>
        exact restores_array fun w hw => hpart w (hall _ (List.mem_map_of_mem (Array.mem_toList_iff.2 hw)))
  | obj id =>
    rw [Ref.value, unfold] at hsound ⊢
    split at hsound
    · cases hsound
    · rename_i hnew
      rw [if_neg hnew]
      cases hsound with
      | dict hkeys hall =>
        rw [List.map_map] at hkeys
        refine restores_object hkeys fun w hw => ?_
        obtain ⟨e, he, rfl⟩ := List.mem_map.1 hw
        exact hpart e.2 (hall _ (List.mem_map_of_mem he))

/-- The plain data of a sound unfolding restores the value. -/
theorem restores_unfold {P : Float → Prop} {fuel : Nat} {above : List Ref} (hsound : (h.unfold fuel above v).Sound P) :
    h.Restores v (h.unfold fuel above v).plain := by
  induction fuel generalizing above v with
  | zero =>
    refine restores_constant fun r hr => ?_
    subst hr
    cases r <;> cases hsound
  | succ fuel ih =>
    by_cases hconstant : ∀ r : Ref, v ≠ r.value
    · exact restores_constant hconstant
    · obtain ⟨r, hr⟩ := Classical.not_forall.1 hconstant
      obtain rfl := Classical.not_not.1 hr
      exact restores_ref hsound fun w hw => ih hw

end Heap

end DeskScript
