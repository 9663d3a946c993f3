import DeskScript.Proofs.Value.Unfolding
import Mathlib.Data.Finset.Basic
import Mathlib.Data.Finset.Dedup

set_option autoImplicit false

/-!
# How values are shown outside

Values go out as plain data, to the host and into JSON texts. One walk with one set does it: a collection is put into the
set when it is entered and taken out when it is left. So the set holds what is above a place and not what has been seen,
and a collection is replaced only inside itself. Main statement: `Heap.renders_unfolding`.
-/

namespace DeskScript

structure Rendering where
  number : Float → Plain
  circular : Plain

namespace Rendering

def outward : Rendering := ⟨Plain.ofFloat, .null⟩

def json : Rendering := ⟨fun x => if x.isFinite then Plain.ofFloat x else .null, .str "[Circular]"⟩

def constant? (R : Rendering) : Value → Option Plain
  | .null => some .null
  | .bool b => some (.bool b)
  | .num x => some (R.number x)
  | .str s => some (.str s)
  | .arr _ | .obj _ => none

theorem constant?_isSome (R : Rendering) {v : Value} (hv : ∀ r : Ref, v ≠ r.value) : ∃ p, R.constant? v = some p := by
  cases v with
  | null | bool _ | num _ | str _ => exact ⟨_, rfl⟩
  | arr id => exact absurd rfl (hv (.arr id))
  | obj id => exact absurd rfl (hv (.obj id))

end Rendering

namespace Tree

mutual

def render (R : Rendering) : Tree → Plain
  | null => .null
  | bool b => .bool b
  | num x => R.number x
  | str s => .str s
  | list items => .list (renderItems R items)
  | dict entries => .dict (renderEntries R entries)
  | circular => R.circular

def renderItems (R : Rendering) : List Tree → List Plain
  | [] => []
  | t :: rest => render R t :: renderItems R rest

def renderEntries (R : Rendering) : List (String × Tree) → List (String × Plain)
  | [] => []
  | (k, t) :: rest => (k, render R t) :: renderEntries R rest

end

theorem renderItems_eq (R : Rendering) (items : List Tree) : renderItems R items = items.map (render R) := by
  induction items with
  | nil => rfl
  | cons t rest ih => rw [renderItems, ih, List.map_cons]

theorem renderEntries_eq (R : Rendering) (entries : List (String × Tree)) :
    renderEntries R entries = entries.map fun e => (e.1, render R e.2) := by
  induction entries with
  | nil => rfl
  | cons e rest ih => rw [renderEntries, ih, List.map_cons]

mutual

theorem plain_eq : (t : Tree) → t.plain = t.render .outward
  | null | bool _ | num _ | str _ | circular => rfl
  | list items => congrArg Plain.list (plainItems_eq items)
  | dict entries => congrArg Plain.dict (plainEntries_eq entries)

theorem plainItems_eq : (items : List Tree) → plainItems items = renderItems .outward items
  | [] => rfl
  | t :: rest => congrArg₂ List.cons (plain_eq t) (plainItems_eq rest)

theorem plainEntries_eq : (entries : List (String × Tree)) → plainEntries entries = renderEntries .outward entries
  | [] => rfl
  | (k, t) :: rest => congrArg₂ List.cons (congrArg (k, ·) (plain_eq t)) (plainEntries_eq rest)

end

end Tree

namespace Plain

mutual

def json (indent : Json.Indent) (level : Nat) : Plain → String
  | null => "null"
  | bool b => if b then "true" else "false"
  | int i => Number.intText i
  | float x => if x.isFinite then Number.plainText x else numberText x
  | str s => Json.quoted s
  | list items => Json.bracketed indent level "[" "]" (jsonItems indent (level + 1) items)
  | dict entries => Json.bracketed indent level "\x7b" "\x7d" (jsonEntries indent (level + 1) entries)

def jsonItems (indent : Json.Indent) (level : Nat) : List Plain → List String
  | [] => []
  | p :: rest => json indent level p :: jsonItems indent level rest

def jsonEntries (indent : Json.Indent) (level : Nat) : List (String × Plain) → List String
  | [] => []
  | (k, p) :: rest => (Json.quoted k ++ Json.colon indent ++ json indent level p) :: jsonEntries indent level rest

end

theorem json_number (indent : Json.Indent) (level : Nat) (x : Float) :
    (Rendering.json.number x).json indent level = Json.number x := by
  change (if x.isFinite then ofFloat x else null).json indent level = Json.number x
  unfold Json.number ofFloat
  cases hfinite : x.isFinite with
  | false => rfl
  | true =>
    cases hintegral : Number.isIntegral x with
    | false => simp [json, hfinite]
    | true => simp [json]

theorem json_circular (indent : Json.Indent) (level : Nat) :
    (str "[Circular]").json indent level = "\"[Circular]\"" := by
  rw [json]
  decide +kernel

end Plain

namespace Tree

mutual

theorem json_eq (indent : Json.Indent) (level : Nat) :
    (t : Tree) → t.json indent level = (t.render .json).json indent level
  | null | bool _ | str _ => rfl
  | num x => (Plain.json_number indent level x).symm
  | list items => congrArg (Json.bracketed indent level "[" "]") (jsonItems_eq indent (level + 1) items)
  | dict entries => congrArg (Json.bracketed indent level "\x7b" "\x7d") (jsonEntries_eq indent (level + 1) entries)
  | circular => (Plain.json_circular indent level).symm

theorem jsonItems_eq (indent : Json.Indent) (level : Nat) :
    (items : List Tree) → jsonItems indent level items = Plain.jsonItems indent level (renderItems .json items)
  | [] => rfl
  | t :: rest => congrArg₂ List.cons (json_eq indent level t) (jsonItems_eq indent level rest)

theorem jsonEntries_eq (indent : Json.Indent) (level : Nat) : (entries : List (String × Tree)) →
    jsonEntries indent level entries = Plain.jsonEntries indent level (renderEntries .json entries)
  | [] => rfl
  | (k, t) :: rest => congrArg₂ List.cons (congrArg (Json.quoted k ++ Json.colon indent ++ ·) (json_eq indent level t))
    (jsonEntries_eq indent level rest)

end

end Tree

namespace Heap

variable {h : Heap} {R : Rendering} {v : Value} {p : Plain} {above : List Ref}

def wrap (h : Heap) : Ref → List Plain → Plain
  | .arr _, ps => .list ps
  | .obj id, ps => .dict ((h.fields id).keys.zip ps)

def rendered (h : Heap) (R : Rendering) (above : List Ref) (v : Value) : Plain :=
  (h.unfold (h.size + 1 - above.length) above v).render R

theorem rendered_constant (h : Heap) (above : List Ref) (hv : R.constant? v = some p) : h.rendered R above v = p := by
  cases v with
  | null | bool _ | num _ | str _ =>
    unfold rendered unfold
    exact Option.some.inj hv
  | arr _ | obj _ => cases hv

theorem rendered_again {r : Ref} (hpath : h.Path above r.value) (hr : r ∈ above) :
    h.rendered R above r.value = R.circular := by
  unfold rendered
  rw [hpath.budget]
  cases r <;> rw [Ref.value, unfold, if_pos (List.contains_iff_mem.2 hr), Tree.render]

theorem rendered_enter {r : Ref} (hpath : h.Path above r.value) (hnew : r ∉ above) :
    h.rendered R above r.value = h.wrap r ((h.parts r.value).map (h.rendered R (r :: above))) := by
  unfold rendered
  rw [hpath.budget, budget_cons]
  cases r with
  | arr id =>
    rw [Ref.value, unfold, if_neg (mt List.contains_iff_mem.1 hnew), Tree.render, Tree.renderItems_eq, List.map_map]
    rfl
  | obj id =>
    rw [Ref.value, unfold, if_neg (mt List.contains_iff_mem.1 hnew), Tree.render, Tree.renderEntries_eq, List.map_map,
      wrap, parts, Dict.keys, Dict.values, List.map_map, List.zip_map']
    rfl

/-- The walk over the values `vs` with the collections in `seen`: the data `ps` that it gives for them and the set that it
leaves. A collection is in the set while its parts are walked over. -/
inductive Walks (h : Heap) (R : Rendering) : Finset Ref → List Value → List Plain → Finset Ref → Prop where
  | done {seen} : Walks h R seen [] [] seen
  | constant {seen after v vs p ps} (hv : R.constant? v = some p) (hrest : Walks h R seen vs ps after) :
      Walks h R seen (v :: vs) (p :: ps) after
  | again {seen after r vs ps} (hr : r ∈ seen) (hrest : Walks h R seen vs ps after) :
      Walks h R seen (r.value :: vs) (R.circular :: ps) after
  | enter {seen inside after r vs qs ps} (hr : r ∉ seen)
      (hparts : Walks h R (insert r seen) (h.parts r.value) qs inside)
      (hrest : Walks h R (inside.erase r) vs ps after) : Walks h R seen (r.value :: vs) (h.wrap r qs :: ps) after

/-- The walk gives the data of the model and leaves the set as it was. -/
theorem Walks.eq_rendered {seen after : Finset Ref} {vs : List Value} {ps : List Plain}
    (hwalk : h.Walks R seen vs ps after) (habove : above.toFinset = seen) (hpaths : ∀ v ∈ vs, h.Path above v) :
    ps = vs.map (h.rendered R above) ∧ after = seen := by
  induction hwalk generalizing above with
  | done => exact ⟨rfl, rfl⟩
  | constant hv _ ih =>
    obtain ⟨hps, hafter⟩ := ih habove (List.forall_mem_cons.1 hpaths).2
    rw [List.map_cons, rendered_constant h above hv, hps]
    exact ⟨rfl, hafter⟩
  | again hr _ ih =>
    obtain ⟨hpath, hrest⟩ := List.forall_mem_cons.1 hpaths
    obtain ⟨hps, hafter⟩ := ih habove hrest
    rw [← habove, List.mem_toFinset] at hr
    rw [List.map_cons, rendered_again hpath hr, hps]
    exact ⟨rfl, hafter⟩
  | @enter seen inside after r vs qs ps hr _ _ ihparts ihrest =>
    obtain ⟨hpath, hrest⟩ := List.forall_mem_cons.1 hpaths
    have hnew : r ∉ above := by rwa [← habove, List.mem_toFinset] at hr
    have hbelow : (r :: above).toFinset = insert r seen := by rw [List.toFinset_cons, habove]
    obtain ⟨hqs, hinside⟩ := ihparts hbelow fun w hw => hpath.enter hnew hw
    -- Leaving the collection brings back the set that it was entered with.
    have hleft : inside.erase r = seen := by rw [hinside, Finset.erase_insert hr]
    obtain ⟨hps, hafter⟩ := ihrest (habove.trans hleft.symm) hrest
    rw [List.map_cons, rendered_enter hpath hnew, hqs, hps]
    exact ⟨rfl, hafter.trans hleft⟩

/-- The walk over a value ends, whatever comes after the value. -/
theorem walks_cons (hpath : h.Path above v) : ∀ vs ps, h.Walks R above.toFinset vs ps above.toFinset →
    h.Walks R above.toFinset (v :: vs) (h.rendered R above v :: ps) above.toFinset := by
  refine hpath.induction (motive := fun above v => ∀ vs ps, h.Walks R above.toFinset vs ps above.toFinset →
    h.Walks R above.toFinset (v :: vs) (h.rendered R above v :: ps) above.toFinset) ?constant ?collection
  case constant =>
    intro above v hv vs ps hrest
    obtain ⟨p, hp⟩ := R.constant?_isSome hv
    rw [rendered_constant h above hp]
    exact .constant hp hrest
  case collection =>
    intro above r hpath hinside vs ps hrest
    by_cases hnew : r ∈ above
    · rw [rendered_again hpath hnew]
      exact .again (List.mem_toFinset.2 hnew) hrest
    have hparts : ∀ ws, (∀ w ∈ ws, h.Holds r.value w) →
        h.Walks R (r :: above).toFinset ws (ws.map (h.rendered R (r :: above))) (r :: above).toFinset := by
      intro ws hws
      induction ws with
      | nil => exact .done
      | cons w ws ih =>
        obtain ⟨hw, hws⟩ := List.forall_mem_cons.1 hws
        exact hinside hnew w hw ws _ (ih hws)
    have hentered := hparts (h.parts r.value) fun _ hw => hw
    have hfresh : r ∉ above.toFinset := mt List.mem_toFinset.1 hnew
    rw [List.toFinset_cons] at hentered
    rw [rendered_enter hpath hnew]
    apply Walks.enter hfresh hentered
    rwa [Finset.erase_insert hfresh]

/-- The data of a value below the collections `above`, where a collection is replaced if `cut` says so and unfolded if it
does not. -/
inductive Shows (h : Heap) (R : Rendering) (cut : List Ref → Ref → Prop) : List Ref → Value → Plain → Prop where
  | constant {above : List Ref} {v : Value} {p : Plain} (hv : R.constant? v = some p) : Shows h R cut above v p
  | again {above : List Ref} {r : Ref} (hr : cut above r) : Shows h R cut above r.value R.circular
  | enter {above : List Ref} {r : Ref} {ps : List Plain} (hr : ¬ cut above r)
      (hlength : ps.length = (h.parts r.value).length)
      (hparts : ∀ i (hi : i < (h.parts r.value).length) (hi' : i < ps.length),
        Shows h R cut (r :: above) (h.parts r.value)[i] ps[i]) :
      Shows h R cut above r.value (h.wrap r ps)

def Inside (above : List Ref) (r : Ref) : Prop := r ∈ above

def Nowhere (_ : List Ref) (_ : Ref) : Prop := False

theorem Shows.eq_rendered (hshows : h.Shows R Inside above v p) (hpath : h.Path above v) :
    p = h.rendered R above v := by
  induction hshows with
  | constant hv => exact (rendered_constant h _ hv).symm
  | again hr => exact (rendered_again hpath hr).symm
  | enter hr hlength _ ih =>
    rw [rendered_enter hpath hr]
    congr 1
    refine List.ext_getElem (by rw [hlength, List.length_map]) fun i hi hi' => ?_
    rw [List.getElem_map]
    rw [List.length_map] at hi'
    exact ih i hi' hi (hpath.enter hr (List.getElem_mem hi'))

theorem shows_rendered (hpath : h.Path above v) : h.Shows R Inside above v (h.rendered R above v) := by
  refine hpath.induction (motive := fun above v => h.Shows R Inside above v (h.rendered R above v)) ?constant
    ?collection
  case constant =>
    intro above v hv
    obtain ⟨p, hp⟩ := R.constant?_isSome hv
    rw [rendered_constant h above hp]
    exact .constant hp
  case collection =>
    intro above r hpath hinside
    by_cases hnew : r ∈ above
    · rw [rendered_again hpath hnew]
      exact .again hnew
    rw [rendered_enter hpath hnew]
    refine .enter hnew (List.length_map _) fun i hi hi' => ?_
    rw [List.getElem_map]
    exact hinside hnew _ (List.getElem_mem hi)

theorem Shows.full (hshows : h.Shows R Inside above v p) (hpath : h.Path above v) (hacyclic : h.Acyclic v) :
    h.Shows R Nowhere above v p := by
  induction hshows with
  | constant hv => exact .constant hv
  | again hr => exact absurd hr (hpath.not_mem hacyclic)
  | enter hr hlength _ ih =>
    refine .enter not_false hlength fun i hi hi' => ?_
    have hw := List.getElem_mem hi
    exact ih i hi hi' (hpath.enter hr hw) (hacyclic.part hw)

theorem Shows.acyclic (hshows : h.Shows R Nowhere above v p) : h.Acyclic v := by
  induction hshows with
  | @constant _ v _ hv =>
    apply acyclic_of_parts
    intro w hw
    cases v <;> cases hv <;> cases hw
  | again hr => exact hr.elim
  | enter _ hlength _ ih =>
    apply acyclic_of_parts
    intro w hw
    obtain ⟨i, hi, rfl⟩ := List.getElem_of_mem hw
    exact ih i hi (hlength ▸ hi)

/-- A value goes out as its unfolding. The walk over it ends with the set as it was, and what it gives is the unfolding in
which a collection is replaced where it is inside itself and nowhere else; that is the full unfolding if and only if
nothing in the value is inside itself. -/
theorem renders_unfolding (h : Heap) (v : Value) (R : Rendering) :
    (∀ ps after, h.Walks R ∅ [v] ps after ↔ ps = [(h.tree v).render R] ∧ after = ∅) ∧
    (∀ p, h.Shows R Inside [] v p ↔ p = (h.tree v).render R) ∧
    (h.Acyclic v ↔ h.Shows R Nowhere [] v ((h.tree v).render R)) ∧
    h.plain v = (h.tree v).render .outward ∧ ∀ indent, h.json v indent = ((h.tree v).render .json).json indent 0 := by
  have hshows : h.Shows R Inside [] v ((h.tree v).render R) := shows_rendered .nil
  refine ⟨fun ps after => ⟨fun hwalk => ?_, ?_⟩, fun p => ⟨fun hp => hp.eq_rendered .nil, ?_⟩, ?_, Tree.plain_eq _, ?_⟩
  · refine hwalk.eq_rendered List.toFinset_nil fun w hw => ?_
    rw [List.mem_singleton.1 hw]
    exact .nil
  · rintro ⟨rfl, rfl⟩
    exact walks_cons .nil [] [] .done
  · rintro rfl
    exact hshows
  · exact ⟨hshows.full .nil, Shows.acyclic⟩
  · exact fun indent => Tree.json_eq indent 0 _

/-- An array that holds itself once and another array twice. -/
example : Heap.plain ⟨#[#[.arr 0, .arr 1, .arr 1], #[.str "a"]], #[]⟩ (.arr 0) =
    .list [.null, .list [.str "a"], .list [.str "a"]] := rfl

end Heap

end DeskScript
