import DeskScript.Machine.Step
import DeskScript.Proofs.Builtin.Frames
import DeskScript.Proofs.Number.Integral

set_option autoImplicit false

/-!
# Properties are read as they were written

A property of an array or an object is written and read by tests of its key that are made apart. A number stands for a
place of an array if it is an integer, and zero for the same one whatever its sign. A key of an object stands for the text
that it is shown as. Main statement: `Heap.properties_agree`.
-/

namespace DeskScript

open Number

def Value.IsScalar (v : Value) : Prop := ∀ r : Ref, v ≠ r.value

def Value.IsIndex (v : Value) (i : Int) : Prop := ∃ x, v = .num x ∧ Denotes x i

namespace Heap

variable {h h' : Heap} {r : Ref} {key value : Value} {id : Nat} {x y : Float} {i : Int}

/-- Two keys that stand for one place of a collection. -/
def SamePlace (h : Heap) : Ref → Value → Value → Prop
  | .arr _, k, k' => ∃ i, k.IsIndex i ∧ k'.IsIndex i
  | .obj _, k, k' => h.display k = h.display k'

/-- The keys that a collection can be written at: an array at its places and behind the last, an object everywhere. -/
def Accepts (h : Heap) : Ref → Value → Prop
  | .arr id, k => ∃ i, k.IsIndex i ∧ 0 ≤ i ∧ i ≤ (h.items id).size
  | .obj _, _ => True

/-- What a write leaves: its place reads as the value, other places read as before, apart from the length of an array, and
so does every other collection. An array has a new place if it was written behind its last one. A new key of an object
stands last. -/
structure Stored (h h' : Heap) (r : Ref) (key value : Value) : Prop where
  reads : h'.getProperty r.value key = .ok value
  others : ∀ k, k.IsScalar → ¬h.SamePlace r key k → (∀ id, r = .arr id → k ≠ .str "length") →
    h'.getProperty r.value k = h.getProperty r.value k
  grows : ∀ id, r = .arr id → key.IsIndex (h.items id).size → (h'.items id).size = (h.items id).size + 1
  stays : ∀ id, r = .arr id → ¬key.IsIndex (h.items id).size → (h'.items id).size = (h.items id).size
  keys : ∀ id, r = .obj id → (h'.fields id).keys =
    if h.display key ∈ (h.fields id).keys then (h.fields id).keys else (h.fields id).keys ++ [h.display key]
  elsewhere : ∀ c ∈ h.refs, c ≠ r → h.SameAt h' c

theorem items_modifyItems (hid : id < h.arrays.size) (f : Array Value → Array Value) :
    (h.modifyItems id f).items id = f (h.items id) := by
  simp [items, modifyItems, Array.getD_eq_getD_getElem?, Array.getElem_modify, hid]

theorem fields_modifyFields (hid : id < h.objects.size) (f : Dict Value → Dict Value) :
    (h.modifyFields id f).fields id = f (h.fields id) := by
  simp [fields, modifyFields, Array.getD_eq_getD_getElem?, Array.getElem_modify, hid]

theorem display_scalar (h h' : Heap) (hkey : key.IsScalar) : h'.display key = h.display key := by
  cases key with
  | null | bool b | num x | str s => rfl
  | arr id => exact absurd rfl (hkey (.arr id))
  | obj id => exact absurd rfl (hkey (.obj id))

def element (items : Array Value) (x : Float) : Except Failure Value := (index? x items.size).map fun
  | some i => items.getD i .null
  | none => .null

theorem index?_of_denotes (hx : Denotes x i) (length : Nat) :
    index? x length = .ok (if 0 ≤ i ∧ i < length then some i.toNat else none) := by
  obtain ⟨hintegral, rfl⟩ := denotes_iff.1 hx
  unfold index?
  rw [if_pos hintegral]
  simp only [Bool.and_eq_true, decide_eq_true_eq]

theorem index?_of_not_integral (hx : isIntegral x = false) (length : Nat) :
    index? x length = .error (.because (.indexNotInteger (numberText x))) := by
  unfold index?
  rw [hx, if_neg Bool.false_ne_true]

theorem element_of_denotes (hx : Denotes x i) (items : Array Value) :
    element items x = .ok (if 0 ≤ i then items.getD i.toNat .null else .null) := by
  unfold element
  rw [index?_of_denotes hx]
  by_cases hinside : 0 ≤ i ∧ i < items.size
  · rw [if_pos hinside, if_pos hinside.1]
    rfl
  · rw [if_neg hinside]
    split
    · rw [Array.getD_eq_getD_getElem?, Array.getElem?_eq_none (by omega)]
      rfl
    · rfl

/-- An element reads as in another array that has the same element there. -/
theorem element_congr {items items' : Array Value}
    (hsame : ∀ i : Int, Denotes y i → 0 ≤ i → items'.getD i.toNat .null = items.getD i.toNat .null) :
    element items' y = element items y := by
  cases hintegral : isIntegral y with
  | false =>
    unfold element
    rw [index?_of_not_integral hintegral, index?_of_not_integral hintegral]
    rfl
  | true =>
    have hy := denotes_truncated hintegral
    rw [element_of_denotes hy, element_of_denotes hy]
    split
    · rw [hsame _ hy (by assumption)]
    · rfl

theorem element_push {items : Array Value} (hy : ¬Denotes y items.size) : element (items.push value) y = element items y := by
  refine element_congr fun i hi hpos => ?_
  have hother : i.toNat ≠ items.size := by
    rintro hsize
    rw [← hsize, Int.toNat_of_nonneg hpos] at hy
    exact hy hi
  rw [Array.getD_eq_getD_getElem?, Array.getD_eq_getD_getElem?, Array.getElem?_push, if_neg hother]

theorem element_set {items : Array Value} {n : Nat} (hy : ¬Denotes y n) :
    element (items.setIfInBounds n value) y = element items y := by
  refine element_congr fun i hi hpos => ?_
  have hother : n ≠ i.toNat := by
    rintro rfl
    rw [Int.toNat_of_nonneg hpos] at hy
    exact hy hi
  rw [Array.getD_eq_getD_getElem?, Array.getD_eq_getD_getElem?, Array.getElem?_setIfInBounds_ne hother]

inductive Edited (h : Heap) (id : Nat) (key value : Value) : Heap → Prop
  | push {x : Float} (hkey : key = .num x) (hx : Denotes x (h.items id).size) :
      Edited h id key value (h.modifyItems id (·.push value))
  | set {x : Float} {n : Nat} (hkey : key = .num x) (hx : Denotes x n) (hn : n < (h.items id).size) :
      Edited h id key value (h.modifyItems id (·.setIfInBounds n value))

theorem setProperty_arr (h : Heap) (id : Nat) (key value : Value) :
    (∃ h', h.setProperty (.arr id) key value = .ok h' ∧ h.Edited id key value h') ∨
      (∃ e, h.setProperty (.arr id) key value = .error e) ∧ ¬h.Accepts (.arr id) key := by
  have hrefused (hkey : ∀ x, key ≠ .num x) : ¬h.Accepts (.arr id) key := fun ⟨_, ⟨x, heq, _⟩, _⟩ => hkey x heq
  cases key with
  | num x =>
    unfold setProperty
    dsimp only
    cases hintegral : isIntegral x with
    | false =>
      rw [index?_of_not_integral hintegral]
      refine .inr ⟨⟨_, rfl⟩, ?_⟩
      rintro ⟨i, ⟨y, hy, hi⟩, -⟩
      cases hy
      exact not_denotes hintegral i hi
    | true =>
      have hx := denotes_truncated hintegral
      rw [Bool.true_and, index?_of_denotes hx]
      generalize truncated x = i at hx ⊢
      by_cases hlast : i = (h.items id).size
      · subst hlast
        rw [if_pos (beq_self_eq_true _)]
        exact .inl ⟨_, rfl, .push rfl hx⟩
      · rw [if_neg (mt beq_iff_eq.1 hlast)]
        by_cases hinside : 0 ≤ i ∧ i < (h.items id).size
        · rw [if_pos hinside]
          rw [← Int.toNat_of_nonneg hinside.1] at hx
          exact .inl ⟨_, rfl, .set rfl hx (by omega)⟩
        · rw [if_neg hinside]
          refine .inr ⟨⟨_, rfl⟩, ?_⟩
          rintro ⟨j, ⟨y, hy, hj⟩, hrange⟩
          cases hy
          rw [hx.unique hj] at hlast hinside
          omega
  | null | bool b | str s | arr _ | obj _ => exact .inr ⟨⟨_, rfl⟩, hrefused (by simp)⟩

theorem Edited.accepts (hedited : h.Edited id key value h') : h.Accepts (.arr id) key := by
  cases hedited with
  | push hkey hx => exact ⟨_, ⟨_, hkey, hx⟩, by omega⟩
  | set hkey hx hn => exact ⟨_, ⟨_, hkey, hx⟩, by omega⟩

/-- A key of an array that is neither a number nor its length cannot be read. -/
theorem getProperty_arr_other (h : Heap) (id : Nat) (hkey : key.IsScalar) (hnum : ∀ x, key ≠ .num x)
    (hlength : key ≠ .str "length") :
    h.getProperty (.arr id) key = .error (.because (.unreadableProperty (h.display key) .array)) := by
  unfold getProperty
  split
  · contradiction
  · rename_i heq
    cases heq
    exact absurd rfl (hnum _)
  · contradiction
  · exact absurd rfl hlength
  · contradiction
  · rfl

/-- A write to an array at an index, of which the elements are known that the array has then. -/
theorem stored_of_elements (hx : Denotes x i) (hreads : element (h'.items id) x = .ok value)
    (hothers : ∀ y, ¬Denotes y i → element (h'.items id) y = element (h.items id) y)
    (hgrows : i = (h.items id).size → (h'.items id).size = (h.items id).size + 1)
    (hstays : i ≠ (h.items id).size → (h'.items id).size = (h.items id).size) (htouches : h.Touches (· = .arr id) h') :
    h.Stored h' (.arr id) (.num x) value where
  reads := hreads
  others k hk hplace hlength := by
    change h'.getProperty (.arr id) k = h.getProperty (.arr id) k
    by_cases hnum : ∃ y, k = .num y
    · obtain ⟨y, rfl⟩ := hnum
      exact hothers y fun hy => hplace ⟨i, ⟨x, rfl, hx⟩, ⟨y, rfl, hy⟩⟩
    · have hnum : ∀ y, k ≠ .num y := fun y heq => hnum ⟨y, heq⟩
      have hlength := hlength id rfl
      rw [getProperty_arr_other h' id hk hnum hlength, getProperty_arr_other h id hk hnum hlength, display_scalar h h' hk]
  grows other hother hlast := by
    cases hother
    obtain ⟨y, hy, hlast⟩ := hlast
    cases hy
    exact hgrows (hx.unique hlast)
  stays other hother hlast := by
    cases hother
    exact hstays fun heq => hlast ⟨x, rfl, heq ▸ hx⟩
  keys other hother := nomatch hother
  elsewhere c hc hne := htouches.same c hc hne

theorem Edited.stored (hedited : h.Edited id key value h') (hid : id < h.arrays.size) : h.Stored h' (.arr id) key value := by
  cases hedited with
  | push hkey hx =>
    subst hkey
    have hitems := items_modifyItems hid (·.push value)
    refine stored_of_elements hx ?_ ?_ ?_ ?_ (touches_modifyItems _ rfl)
    · rw [hitems, element_of_denotes hx, if_pos (Int.natCast_nonneg _)]
      simp [Array.getD_eq_getD_getElem?]
    · intro y hy
      rw [hitems, element_push hy]
    · intro _
      rw [hitems, Array.size_push]
    · exact fun hne => absurd rfl hne
  | @set x n hkey hx hn =>
    subst hkey
    have hitems := items_modifyItems hid (·.setIfInBounds n value)
    refine stored_of_elements hx ?_ ?_ ?_ ?_ (touches_modifyItems _ rfl)
    · rw [hitems, element_of_denotes hx, if_pos (Int.natCast_nonneg _)]
      simp [Array.getD_eq_getD_getElem?, hn]
    · intro y hy
      rw [hitems, element_set hy]
    · intro hlast
      omega
    · intro _
      rw [hitems, Array.size_setIfInBounds]

theorem getProperty_obj (h : Heap) (id : Nat) (key : Value) :
    h.getProperty (.obj id) key = .ok (((h.fields id).get? (h.display key)).getD .null) := by
  cases key <;> rfl

theorem setProperty_obj (h : Heap) (id : Nat) (key value : Value) :
    h.setProperty (.obj id) key value = .ok (h.modifyFields id (·.insert (h.display key) value)) := by
  cases key <;> rfl

theorem stored_insert (hid : id < h.objects.size) (hkey : key.IsScalar) (value : Value) :
    h.Stored (h.modifyFields id (·.insert (h.display key) value)) (.obj id) key value := by
  have hfields := fields_modifyFields hid (·.insert (h.display key) value)
  have hdisplay {k : Value} (hk : k.IsScalar) :=
    display_scalar h (h.modifyFields id (·.insert (h.display key) value)) hk
  have htouches : h.Touches (· = .obj id) (h.modifyFields id (·.insert (h.display key) value)) :=
    touches_modifyFields _ rfl
  exact {
    reads := by
      change getProperty _ (.obj id) key = _
      rw [getProperty_obj, hfields, hdisplay hkey, Dict.get?_insert_self]
      rfl
    others := by
      intro k hk hplace _
      change getProperty _ (.obj id) k = h.getProperty (.obj id) k
      rw [getProperty_obj, getProperty_obj, hfields, hdisplay hk,
        Dict.get?_insert_of_ne _ _ _ _ fun heq => hplace heq.symm]
    grows := fun _ hother => nomatch hother
    stays := fun _ hother => nomatch hother
    keys := by
      intro other hother
      cases hother
      rw [hfields, Dict.keys_insert]
    elsewhere := fun c hc hne => htouches.same c hc hne }

/-- A property is written where its collection accepts the key. What was written is read at the key, and nothing else has
changed but the length of an array that was written behind its last place. Where the write fails the run is as it was. -/
theorem properties_agree (hr : r ∈ h.refs) (hkey : key.IsScalar) (value : Value) :
    ((∃ h', h.setProperty r.value key value = .ok h') ↔ h.Accepts r key) ∧
    (∀ h', h.setProperty r.value key value = .ok h' → h.Stored h' r key value) ∧
    ∀ e, h.setProperty r.value key value = .error e → ∀ (run : Run) d stack, run.heap = h →
      run.giveValue d value stack (.assignValue r.value key) = .raise run d (Raised.ofFailure e) stack := by
  refine ⟨?_, ?_, ?_⟩
  · cases r with
    | arr id =>
      rcases h.setProperty_arr id key value with ⟨h', hok, hedited⟩ | ⟨⟨e, herror⟩, hrefused⟩
      · exact iff_of_true ⟨h', hok⟩ hedited.accepts
      · refine iff_of_false ?_ hrefused
        rintro ⟨h', hok⟩
        cases herror.symm.trans hok
    | obj id => exact iff_of_true ⟨_, setProperty_obj h id key value⟩ trivial
  · intro h' hok
    cases r with
    | arr id =>
      rcases h.setProperty_arr id key value with ⟨g, hok', hedited⟩ | ⟨⟨e, herror⟩, -⟩
      · cases hok'.symm.trans hok
        exact hedited.stored (arr_mem_refs.1 hr)
      · cases herror.symm.trans hok
    | obj id =>
      cases (setProperty_obj h id key value).symm.trans hok
      exact stored_insert (obj_mem_refs.1 hr) hkey value
  · rintro e herror run d stack rfl
    unfold Run.giveValue
    dsimp only
    rw [herror]

def single : Heap := ⟨#[#[.bool true]], #[]⟩

/-- The element is written at a zero with a sign. -/
theorem properties_agree_minusZero : Ref.arr 0 ∈ single.refs ∧ Value.IsScalar (.num (-0)) ∧
    ∃ h', single.setProperty (.arr 0) (.num (-0)) .null = .ok h' ∧ h'.getProperty (.arr 0) (.num (-0)) = .ok .null ∧
      (h'.items 0).size = 1 := by
  have hr : Ref.arr 0 ∈ single.refs := arr_mem_refs.2 (by decide)
  have hkey : Value.IsScalar (.num (-0)) := fun r hr => by cases r <;> cases hr
  have hzero : Denotes (-0) 0 := denotes_iff.2 (by decide +kernel)
  obtain ⟨haccepts, hstored, -⟩ := properties_agree hr hkey .null
  obtain ⟨h', hok⟩ := haccepts.2 ⟨0, ⟨-0, rfl, hzero⟩, by decide, by decide⟩
  refine ⟨hr, hkey, h', hok, (hstored h' hok).reads, ?_⟩
  refine (hstored h' hok).stays 0 rfl ?_
  rintro ⟨x, hx, hlast⟩
  cases hx
  exact absurd (hzero.unique hlast) (by decide)

end Heap

end DeskScript
