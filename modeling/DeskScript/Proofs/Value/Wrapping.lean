import DeskScript.Proofs.Builtin.Frames
import DeskScript.Proofs.Number.Integral
import DeskScript.Proofs.Value.Rendering
import Mathlib.Data.List.Forall2

set_option autoImplicit false

/-!
# Plain data comes back from values

Data is made into a value whose collections are new on the heap, and the value goes out as data again. On the way integers
become doubles and integral doubles become integers; all else is kept. Only an integer too large for a double stops it.
Main statement: `Heap.plain_ofPlain`.
-/

namespace DeskScript

open Number

namespace Plain

variable {p q : Plain} {items ps qs : List Plain} {entries : List (String × Plain)}

inductive Inside : Plain → Plain → Prop where
  | refl (p : Plain) : Inside p p
  | item {p q : Plain} {items : List Plain} (hp : p ∈ items) (hq : Inside q p) : Inside q (.list items)
  | entry {e : String × Plain} {q : Plain} {entries : List (String × Plain)} (he : e ∈ entries) (hq : Inside q e.2) :
      Inside q (.dict entries)

def Keyed (p : Plain) : Prop := ∀ entries, Inside (.dict entries) p → (entries.map (·.1)).Nodup

def Overflows (p : Plain) : Prop := ∃ i, Inside (.int i) p ∧ beyond ≤ i.natAbs

/-- What comes back for a datum: the same order, keys, texts and truth values. An integer that is a double comes back as
the same integer, a double that is an integer as that integer and any other double as it is. -/
inductive Returns : Plain → Plain → Prop where
  | null : Returns .null .null
  | bool (b : Bool) : Returns (.bool b) (.bool b)
  | int {i j : Int} (hsame : ∀ x, Denotes x i → j = i) : Returns (.int i) (.int j)
  | integral {x : Float} {i : Int} (hx : Denotes x i) : Returns (.float x) (.int i)
  | float {x : Float} (hx : ∀ i, ¬Denotes x i) : Returns (.float x) (.float x)
  | str (s : String) : Returns (.str s) (.str s)
  | list {ps qs : List Plain} (hlength : ps.length = qs.length)
      (hitems : ∀ i (hi : i < ps.length) (hi' : i < qs.length), Returns ps[i] qs[i]) : Returns (.list ps) (.list qs)
  | dict {ps qs : List (String × Plain)} (hkeys : ps.map (·.1) = qs.map (·.1))
      (hvalues : ∀ i (hi : i < ps.length) (hi' : i < qs.length), Returns ps[i].2 qs[i].2) : Returns (.dict ps) (.dict qs)

theorem Keyed.item (hkeyed : Keyed (.list items)) (hp : p ∈ items) : p.Keyed := fun entries hentries =>
  hkeyed entries (.item hp hentries)

theorem Keyed.entry {e : String × Plain} (hkeyed : Keyed (.dict entries)) (he : e ∈ entries) : e.2.Keyed :=
  fun inner hinner => hkeyed inner (.entry he hinner)

theorem overflows_int {i : Int} : Overflows (.int i) ↔ beyond ≤ i.natAbs := by
  constructor
  · rintro ⟨j, hj, hlarge⟩
    cases hj
    exact hlarge
  · exact fun hlarge => ⟨i, .refl _, hlarge⟩

theorem overflows_list : Overflows (.list items) ↔ ∃ p ∈ items, p.Overflows := by
  constructor
  · rintro ⟨i, hi, hlarge⟩
    cases hi with
    | item hp hq => exact ⟨_, hp, i, hq, hlarge⟩
  · rintro ⟨p, hp, i, hi, hlarge⟩
    exact ⟨i, .item hp hi, hlarge⟩

theorem overflows_dict : Overflows (.dict entries) ↔ ∃ e ∈ entries, e.2.Overflows := by
  constructor
  · rintro ⟨i, hi, hlarge⟩
    cases hi with
    | entry he hq => exact ⟨_, he, i, hq, hlarge⟩
  · rintro ⟨e, he, i, hi, hlarge⟩
    exact ⟨i, .entry he hi, hlarge⟩

end Plain

namespace Heap

variable {h g g' : Heap} {v : Value} {p q : Plain} {r : Ref}

/-- A value whose collections are all on the heap and none of them inside itself, and the data that goes out for it. -/
inductive Shown (g : Heap) : Value → Plain → Prop where
  | constant {v : Value} {p : Plain} (hv : Rendering.outward.constant? v = some p) : Shown g v p
  | collection {r : Ref} {ps : List Plain} (hr : r ∈ g.refs) (hlength : ps.length = (g.parts r.value).length)
      (hparts : ∀ i (hi : i < (g.parts r.value).length) (hi' : i < ps.length), Shown g (g.parts r.value)[i] ps[i]) :
      Shown g r.value (g.wrap r ps)

theorem Extends.collection (hextends : g.Extends g') (hr : r ∈ g.refs) :
    r ∈ g'.refs ∧ g'.parts r.value = g.parts r.value ∧ g'.wrap r = g.wrap r := by
  cases r with
  | arr id =>
    have hid := arr_mem_refs.1 hr
    exact ⟨arr_mem_refs.2 (Nat.lt_of_lt_of_le hid hextends.arrays), congrArg Array.toList (hextends.items id hid), rfl⟩
  | obj id =>
    have hid := obj_mem_refs.1 hr
    have hfields := hextends.fields id hid
    refine ⟨obj_mem_refs.2 (Nat.lt_of_lt_of_le hid hextends.objects), congrArg Dict.values hfields, funext fun ps => ?_⟩
    rw [wrap, wrap, hfields]

theorem shown_collection {ps : List Plain} (hr : r ∈ g.refs) (hparts : List.Forall₂ g.Shown (g.parts r.value) ps) :
    g.Shown r.value (g.wrap r ps) := .collection hr hparts.length_eq.symm fun _ hi hi' => hparts.get hi hi'

theorem Shown.mono (hshown : g.Shown v p) (hextends : g.Extends g') : g'.Shown v p := by
  induction hshown with
  | constant hv => exact .constant hv
  | @collection r ps hr hlength _ ih =>
    obtain ⟨hr', hparts, hwrap⟩ := hextends.collection hr
    rw [← hwrap]
    refine .collection hr' (hparts ▸ hlength) ?_
    rw [hparts]
    exact ih

theorem Shown.shows (hshown : g.Shown v p) (above : List Ref) : g.Shows .outward Nowhere above v p := by
  induction hshown generalizing above with
  | constant hv => exact .constant hv
  | @collection r _ _ hlength _ ih => exact .enter not_false hlength fun i hi hi' => ih i hi hi' (r :: above)

/-- Where nothing is inside itself no collection is met again. -/
theorem Shows.inside {R : Rendering} {above : List Ref} (hshows : h.Shows R Nowhere above v p) (hpath : h.Path above v)
    (hacyclic : h.Acyclic v) : h.Shows R Inside above v p := by
  induction hshows with
  | constant hv => exact .constant hv
  | again hr => exact hr.elim
  | enter _ hlength _ ih =>
    have hnew := hpath.not_mem hacyclic
    refine .enter hnew hlength fun i hi hi' => ?_
    have hw := List.getElem_mem hi
    exact ih i hi hi' (hpath.enter hnew hw) (hacyclic.part hw)

theorem Shown.plain_eq (hshown : g.Shown v p) : g.plain v = p := by
  have hshows := hshown.shows []
  have hinside := hshows.inside .nil hshows.acyclic
  exact (Tree.plain_eq _).trans (hinside.eq_rendered .nil).symm

/-- Data that is made into a value on any heap unless an integer in it is too large, and comes back from it. -/
def Wraps (p : Plain) : Prop := ∀ h : Heap,
  (p.Overflows ∧ h.ofPlain p = .error .integerTooLarge) ∨
    ¬p.Overflows ∧ ∃ v g q, h.ofPlain p = .ok (v, g) ∧ g.Shown v q ∧ p.Returns q

theorem wraps_constant {v : Value} (hplain : ∀ h : Heap, h.ofPlain p = .ok (v, h)) (hnone : ¬p.Overflows)
    (hv : Rendering.outward.constant? v = some q) (hreturns : p.Returns q) : Wraps p := fun h =>
  .inr ⟨hnone, v, h, q, hplain h, .constant hv, hreturns⟩

theorem wraps_int (i : Int) : Wraps (.int i) := by
  intro h
  rw [Plain.overflows_int, ← ofInt?_eq_none]
  unfold ofPlain
  cases hx : ofInt? i with
  | none => exact .inl ⟨rfl, rfl⟩
  | some x =>
    obtain ⟨j, hj⟩ := denotes_of_ofInt? hx
    have hout : Plain.ofFloat x = .int j := by
      obtain ⟨hintegral, rfl⟩ := denotes_iff.1 hj
      exact if_pos hintegral
    refine .inr ⟨Option.some_ne_none x, .num x, h, .int j, rfl, .constant (congrArg some hout), .int fun y hy => ?_⟩
    have hsame := hy.ofInt?_eq.symm.trans hx
    cases hsame
    exact hj.unique (denotes_unsigned hy)

theorem wraps_float (x : Float) : Wraps (.float x) := by
  have hnone : ¬Plain.Overflows (.float x) := fun ⟨i, hi, _⟩ => nomatch hi
  cases hintegral : isIntegral x with
  | true =>
    exact wraps_constant (fun _ => rfl) hnone (congrArg some (if_pos hintegral)) (.integral (denotes_truncated hintegral))
  | false =>
    have hout : Plain.ofFloat x = .float x := if_neg (Bool.eq_false_iff.1 hintegral)
    exact wraps_constant (fun _ => rfl) hnone (congrArg some hout) (.float (not_denotes hintegral))

theorem wraps_items {items : List Plain} (hall : ∀ p ∈ items, Wraps p) (h : Heap) (done : Array Value) :
    ((∃ p ∈ items, p.Overflows) ∧ h.ofPlainItems done items = .error .integerTooLarge) ∨
      (¬∃ p ∈ items, p.Overflows) ∧ ∃ vs g qs, h.ofPlainItems done items = .ok (done ++ List.toArray vs, g) ∧
        List.Forall₂ g.Shown vs qs ∧ List.Forall₂ Plain.Returns items qs := by
  induction items generalizing h done with
  | nil => exact .inr ⟨by simp, [], h, [], by simp [ofPlainItems], .nil, .nil⟩
  | cons p items ih =>
    obtain ⟨hp, hitems⟩ := List.forall_mem_cons.1 hall
    rw [List.exists_mem_cons_iff]
    unfold ofPlainItems
    rcases hp h with ⟨hlarge, herror⟩ | ⟨hnone, v, g, q, hplain, hshown, hreturns⟩
    · rw [herror]
      exact .inl ⟨.inl hlarge, rfl⟩
    · rw [hplain]
      dsimp only
      rcases ih hitems g (done.push v) with ⟨hlarge, herror⟩ | ⟨hrest, vs, g', qs, hplain, hall, hback⟩
      · exact .inl ⟨.inr hlarge, herror⟩
      · have hshown := hshown.mono (ofPlainItems_extends items hplain)
        exact .inr ⟨not_or.2 ⟨hnone, hrest⟩, v :: vs, g', q :: qs, by simpa using hplain, .cons hshown hall,
          .cons hreturns hback⟩

theorem wraps_list {items : List Plain} (hall : ∀ p ∈ items, Wraps p) : Wraps (.list items) := by
  intro h
  rw [Plain.overflows_list]
  unfold ofPlain
  rcases wraps_items hall h #[] with ⟨hlarge, herror⟩ | ⟨hnone, vs, g, qs, hplain, hshown, hreturns⟩
  · rw [herror]
    exact .inl ⟨hlarge, rfl⟩
  · rw [hplain, Array.empty_append]
    have hlive : Ref.arr g.arrays.size ∈ (g.newArray vs.toArray).2.refs := arr_mem_refs.2 (by simp [newArray])
    have hparts : (g.newArray vs.toArray).2.parts (Ref.arr g.arrays.size).value = vs :=
      congrArg Array.toList (items_newArray_self g vs.toArray)
    have hshown := hshown.imp fun _ _ hv => hv.mono (extends_newArray g vs.toArray)
    exact .inr ⟨hnone, .arr g.arrays.size, (g.newArray vs.toArray).2, .list qs, rfl,
      shown_collection hlive (hparts.symm ▸ hshown), .list hreturns.length_eq fun _ hi hi' => hreturns.get hi hi'⟩

theorem wraps_entries {entries : List (String × Plain)} (hall : ∀ e ∈ entries, Wraps e.2) (h : Heap) (done : Dict Value)
    (hkeys : (done.keys ++ entries.map (·.1)).Nodup) :
    ((∃ e ∈ entries, e.2.Overflows) ∧ h.ofPlainEntries done entries = .error .integerTooLarge) ∨
      (¬∃ e ∈ entries, e.2.Overflows) ∧ ∃ fields g qs, h.ofPlainEntries done entries = .ok (done ++ fields, g) ∧
        Dict.keys fields = entries.map (·.1) ∧ List.Forall₂ g.Shown (Dict.values fields) qs ∧
        List.Forall₂ Plain.Returns (entries.map (·.2)) qs := by
  induction entries generalizing h done with
  | nil => exact .inr ⟨by simp, [], h, [], by simp [ofPlainEntries], rfl, .nil, .nil⟩
  | cons e entries ih =>
    obtain ⟨k, p⟩ := e
    obtain ⟨hp, hentries⟩ := List.forall_mem_cons.1 hall
    rw [List.exists_mem_cons_iff]
    unfold ofPlainEntries
    rcases hp h with ⟨hlarge, herror⟩ | ⟨hnone, v, g, q, hplain, hshown, hreturns⟩
    · rw [herror]
      exact .inl ⟨.inl hlarge, rfl⟩
    · rw [hplain]
      dsimp only
      have hnew : k ∉ done.keys := fun hk => (List.nodup_append.1 hkeys).2.2 k hk k List.mem_cons_self rfl
      have hkeys : (Dict.keys (done ++ [(k, v)]) ++ entries.map (·.1)).Nodup := by
        rw [Dict.keys, List.map_append, List.append_assoc]
        exact hkeys
      rw [Dict.insert_of_not_mem hnew]
      rcases ih hentries g _ hkeys with ⟨hlarge, herror⟩ | ⟨hrest, fields, g', qs, hplain, hsame, hall, hback⟩
      · exact .inl ⟨.inr hlarge, herror⟩
      · have hshown := hshown.mono (ofPlainEntries_extends entries hplain)
        exact .inr ⟨not_or.2 ⟨hnone, hrest⟩, (k, v) :: fields, g', q :: qs, by simpa using hplain,
          congrArg (k :: ·) hsame, .cons hshown hall, .cons hreturns hback⟩

theorem wraps_dict {entries : List (String × Plain)} (hkeys : (entries.map (·.1)).Nodup)
    (hall : ∀ e ∈ entries, Wraps e.2) : Wraps (.dict entries) := by
  intro h
  rw [Plain.overflows_dict]
  unfold ofPlain
  rcases wraps_entries hall h [] hkeys with ⟨hlarge, herror⟩ | ⟨hnone, fields, g, qs, hplain, hsame, hshown, hreturns⟩
  · rw [herror]
    exact .inl ⟨hlarge, rfl⟩
  · rw [hplain, List.nil_append]
    have hlive : Ref.obj g.objects.size ∈ (g.newObject fields).2.refs := obj_mem_refs.2 (by simp [newObject])
    have hfields := fields_newObject_self g fields
    have hparts : (g.newObject fields).2.parts (Ref.obj g.objects.size).value = Dict.values fields :=
      congrArg Dict.values hfields
    have hshown := hshown.imp fun _ _ hv => hv.mono (extends_newObject g fields)
    have hout := shown_collection hlive (hparts.symm ▸ hshown)
    rw [wrap, hfields, hsame] at hout
    have hlength : entries.length = qs.length := by
      rw [← hreturns.length_eq, List.length_map]
    refine .inr ⟨hnone, .obj g.objects.size, (g.newObject fields).2, _, rfl, hout, .dict ?_ fun i hi hi' => ?_⟩
    · rw [List.map_fst_zip (by rw [List.length_map, hlength])]
    · have hvalue := hreturns.get (i := i) (by rwa [List.length_map]) (hlength ▸ hi)
      simpa using hvalue

mutual

theorem wraps : (p : Plain) → p.Keyed → Wraps p
  | .null, _ => wraps_constant (fun _ => rfl) (fun ⟨_, hi, _⟩ => nomatch hi) rfl .null
  | .bool b, _ => wraps_constant (fun _ => rfl) (fun ⟨_, hi, _⟩ => nomatch hi) rfl (.bool b)
  | .int i, _ => wraps_int i
  | .float x, _ => wraps_float x
  | .str s, _ => wraps_constant (fun _ => rfl) (fun ⟨_, hi, _⟩ => nomatch hi) rfl (.str s)
  | .list items, hkeyed => wraps_list (wraps_each items fun _ hp => hkeyed.item hp)
  | .dict entries, hkeyed => wraps_dict (hkeyed entries (.refl _)) (wraps_values entries fun _ he => hkeyed.entry he)

theorem wraps_each : (items : List Plain) → (∀ p ∈ items, p.Keyed) → ∀ p ∈ items, Wraps p
  | [], _ => fun _ hp => nomatch hp
  | p :: items, hkeyed =>
    have hkeyed := List.forall_mem_cons.1 hkeyed
    List.forall_mem_cons.2 ⟨wraps p hkeyed.1, wraps_each items hkeyed.2⟩

theorem wraps_values : (entries : List (String × Plain)) → (∀ e ∈ entries, e.2.Keyed) → ∀ e ∈ entries, Wraps e.2
  | [], _ => fun _ he => nomatch he
  | (_, p) :: entries, hkeyed =>
    have hkeyed := List.forall_mem_cons.1 hkeyed
    List.forall_mem_cons.2 ⟨wraps p hkeyed.1, wraps_values entries hkeyed.2⟩

end

/-- Data with an integer too large for a double cannot be made into a value. All other data is made into one on any heap
and comes back from it, with integers and doubles as far as they are the same. -/
theorem plain_ofPlain (hkeyed : p.Keyed) (h : Heap) :
    (p.Overflows → h.ofPlain p = .error .integerTooLarge) ∧
    (¬p.Overflows → ∃ v g, h.ofPlain p = .ok (v, g) ∧ p.Returns (g.plain v)) := by
  rcases wraps p hkeyed h with ⟨hlarge, herror⟩ | ⟨hnone, v, g, q, hplain, hshown, hreturns⟩
  · exact ⟨fun _ => herror, fun hnone => absurd hlarge hnone⟩
  · exact ⟨fun hlarge => absurd hlarge hnone, fun _ => ⟨v, g, hplain, hshown.plain_eq ▸ hreturns⟩⟩

def nested : Plain := .dict [("pair", .list [.int 3, .float 0.5]), ("done", .bool true)]

theorem keyed_nested : nested.Keyed := by
  intro entries hentries
  cases hentries with
  | refl => decide
  | entry he hq =>
    rcases List.mem_pair.1 he with rfl | rfl
    · cases hq with
      | item hp hq =>
        rcases List.mem_pair.1 hp with rfl | rfl
        · cases hq
        · cases hq
    · cases hq

theorem overflows_nested : ¬nested.Overflows := by
  rintro ⟨i, hi, hlarge⟩
  cases hi with
  | entry he hq =>
    rcases List.mem_pair.1 he with rfl | rfl
    · cases hq with
      | item hp hq =>
        rcases List.mem_pair.1 hp with rfl | rfl
        · cases hq
          exact absurd hlarge (by decide +kernel)
        · cases hq
    · cases hq

/-- The integer comes back, and so does the fraction. -/
theorem plain_ofPlain_nested : nested.Keyed ∧ ¬nested.Overflows ∧
    ∃ v g, ofPlain {} nested = .ok (v, g) ∧ nested.Returns (g.plain v) :=
  ⟨keyed_nested, overflows_nested, (plain_ofPlain keyed_nested {}).2 overflows_nested⟩

end Heap

end DeskScript
