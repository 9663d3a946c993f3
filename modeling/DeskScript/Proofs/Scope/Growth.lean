import DeskScript.Scope

set_option autoImplicit false

/-!
# Scopes grow

A scope stays where it is in the tree, a name that it declares stays declared, and a name comes to be declared at a
boundary only, where no scope outwards declares it. Main statements: `assign_grows`, `Grows.visible`.
-/

namespace DeskScript

/-- How a scope may change: the names it declares are kept in order, and only a boundary gets more of them. -/
structure Scope.Grows (s s' : Scope) : Prop where
  label : s'.label = s.label
  parent : s'.parent = s.parent
  boundary : s'.boundary = s.boundary
  names : s.bindings.keys <+: s'.bindings.keys
  closed : s.boundary = false → s'.bindings.keys = s.bindings.keys

theorem Scope.Grows.refl (s : Scope) : s.Grows s := ⟨rfl, rfl, rfl, List.prefix_rfl, fun _ => rfl⟩

theorem Scope.Grows.trans {s s' s'' : Scope} (h : s.Grows s') (h' : s'.Grows s'') : s.Grows s'' where
  label := h'.label.trans h.label
  parent := h'.parent.trans h.parent
  boundary := h'.boundary.trans h.boundary
  names := h.names.trans h'.names
  closed hinner := (h'.closed (h.boundary.trans hinner)).trans (h.closed hinner)

namespace Scopes

variable {s s' s'' : Scopes} {id other found : ScopeId} {name label : String} {value : Value}

def Declares (s : Scopes) (id : ScopeId) (name : String) : Prop := name ∈ (s.get id).bindings.keys

theorem contains_iff : (s.get id).bindings.contains name = true ↔ s.Declares id name := Dict.contains_iff _ _

def Visible (s : Scopes) (id : ScopeId) (name : String) : Prop := (s.lookup? id name).isSome = true

structure Grows (s s' : Scopes) : Prop where
  size : s.all.size ≤ s'.all.size
  scopes : ∀ id, id < s.all.size → (s.get id).Grows (s'.get id)

theorem Grows.refl (s : Scopes) : s.Grows s := ⟨Nat.le_refl _, fun _ _ => .refl _⟩

theorem Grows.trans (h : s.Grows s') (h' : s'.Grows s'') : s.Grows s'' :=
  ⟨Nat.le_trans h.size h'.size, fun id hid => (h.scopes id hid).trans (h'.scopes id (Nat.lt_of_lt_of_le hid h.size))⟩

structure Rooted (s : Scopes) : Prop where
  root : 0 < s.all.size
  boundary : (s.get 0).boundary = true

theorem rooted_root : root.Rooted := ⟨Nat.one_pos, rfl⟩

theorem Rooted.grows (h : s.Rooted) (hs : s.Grows s') : s'.Rooted :=
  ⟨Nat.lt_of_lt_of_le h.root hs.size, (hs.scopes 0 h.root).boundary.trans h.boundary⟩

theorem nearest_eq (s : Scopes) (test : Scope → Bool) (id : ScopeId) : s.nearest test id =
    if test (s.get id) = true then some id
    else (s.get id).parent.bind fun parent => if parent < id then s.nearest test parent else none := by
  rw [nearest]
  split
  · rfl
  · cases (s.get id).parent <;> rfl

theorem nearest_holds {test : Scope → Bool} (h : s.nearest test id = some found) : test (s.get found) = true := by
  induction id using Nat.strongRecOn with
  | ind id ih =>
    rw [nearest_eq] at h
    split at h
    · rename_i hhere
      cases h
      exact hhere
    · obtain ⟨parent, -, hparent⟩ := Option.bind_eq_some_iff.1 h
      split at hparent
      · rename_i hlt
        exact ih parent hlt hparent
      · cases hparent

theorem declares_of_declaring (h : s.declaring? id name = some found) : s.Declares found name :=
  contains_iff.1 (nearest_holds h)

theorem visible_iff : s.Visible id name ↔ (s.declaring? id name).isSome = true := by
  unfold Visible lookup?
  cases hfound : s.declaring? id name with
  | none => rfl
  | some found => exact iff_of_true (contains_iff.2 (declares_of_declaring hfound)) rfl

/-- A name that is visible from a scope stays so, by induction on the scopes outwards. -/
theorem Grows.visible (h : s.Grows s') (hid : id < s.all.size) (hvisible : s.Visible id name) : s'.Visible id name := by
  rw [visible_iff] at hvisible ⊢
  unfold declaring? at hvisible ⊢
  induction id using Nat.strongRecOn with
  | ind id ih =>
    have hgrows := h.scopes id hid
    rw [nearest_eq] at hvisible ⊢
    by_cases hthere : (s'.get id).bindings.contains name = true
    · rw [if_pos hthere]
      rfl
    · have hbefore : ¬ (s.get id).bindings.contains name = true := fun hdeclared =>
        hthere (contains_iff.2 (hgrows.names.subset (contains_iff.1 hdeclared)))
      rw [if_neg hbefore] at hvisible
      rw [if_neg hthere, hgrows.parent]
      cases hparent : (s.get id).parent with
      | none =>
        rw [hparent] at hvisible
        cases hvisible
      | some parent =>
        rw [hparent] at hvisible
        simp only [Option.bind_some] at hvisible ⊢
        split
        · rename_i hlt
          rw [if_pos hlt] at hvisible
          exact ih parent hlt (Nat.lt_trans hlt hid) hvisible
        · rename_i hlt
          rw [if_neg hlt] at hvisible
          cases hvisible

theorem get_extend (s : Scopes) (parent : ScopeId) (label : String) (boundary : Bool) (bindings : Dict Value)
    (hid : id < s.all.size) : (s.extend parent label boundary bindings).2.get id = s.get id := by
  simp only [extend, get, Array.getD_eq_getD_getElem?, Array.getElem?_push, if_neg (Nat.ne_of_lt hid)]

theorem extend_grows (s : Scopes) (parent : ScopeId) (label : String) (boundary : Bool) (bindings : Dict Value) :
    s.Grows (s.extend parent label boundary bindings).2 := by
  refine ⟨?_, fun id hid => ?_⟩
  · exact Nat.le_of_lt (Nat.lt_of_lt_of_eq (Nat.lt_succ_self _) (Array.size_push _).symm)
  · rw [get_extend s parent label boundary bindings hid]
    exact .refl _

theorem get_declare_self (s : Scopes) (name : String) (value : Value) (hid : id < s.all.size) :
    (s.declare id name value).get id = { s.get id with bindings := (s.get id).bindings.insert name value } := by
  simp only [declare, get, Array.getD_eq_getD_getElem?, Array.getElem?_modify, if_pos, Array.getElem?_eq_getElem hid]
  rfl

theorem get_declare_ne (s : Scopes) (name : String) (value : Value) (h : other ≠ id) :
    (s.declare id name value).get other = s.get other := by
  simp only [declare, get, Array.getD_eq_getD_getElem?, Array.getElem?_modify, if_neg (Ne.symm h)]

def owner (s : Scopes) (id : ScopeId) (name : String) : ScopeId := (s.declaring? id name).getD (s.boundaryOf id)

theorem assign_eq (s : Scopes) (id : ScopeId) (name : String) (value : Value) :
    s.assign id name value = s.declare (s.owner id name) name value := rfl

/-- The name is declared there, or it is visible nowhere and the scope is the nearest boundary. -/
theorem Rooted.owner_cases (h : s.Rooted) (id : ScopeId) (name : String) : s.Declares (s.owner id name) name ∨
    ¬ s.Visible id name ∧ s.owner id name = s.boundaryOf id ∧ (s.get (s.owner id name)).boundary = true := by
  unfold owner
  cases hfound : s.declaring? id name with
  | some found => exact .inl (declares_of_declaring hfound)
  | none =>
    refine .inr ⟨?_, rfl, ?_⟩
    · rw [visible_iff, hfound]
      exact Bool.false_ne_true
    · rw [Option.getD_none, boundaryOf]
      cases hnearest : s.nearest (·.boundary) id with
      | none => exact h.boundary
      | some boundary => exact @nearest_holds _ _ _ (·.boundary) hnearest

theorem assign_grows (h : s.Rooted) (id : ScopeId) (name : String) (value : Value) : s.Grows (s.assign id name value) := by
  rw [assign_eq]
  refine ⟨Nat.le_of_eq Array.size_modify.symm, fun other hother => ?_⟩
  by_cases hself : other = s.owner id name
  · subst hself
    rw [get_declare_self s name value hother]
    have hkeys := Dict.keys_insert (s.get (s.owner id name)).bindings name value
    refine ⟨rfl, rfl, rfl, ?_, fun hinner => ?_⟩
    · rw [hkeys]
      split
      · exact List.prefix_rfl
      · exact List.prefix_append _ _
    · rcases h.owner_cases id name with hdeclared | ⟨-, -, hboundary⟩
      · exact hkeys.trans (if_pos hdeclared)
      · exact absurd (hboundary.symm.trans hinner) (by decide)
  · rw [get_declare_ne s name value hself]
    exact .refl _

/-- An assignment makes a scope declare a name only at the nearest boundary, and only if the name was not visible. -/
theorem declares_assign (h : s.Rooted) {assigned : String} (hbefore : ¬ s.Declares other name)
    (hafter : (s.assign id assigned value).Declares other name) :
    assigned = name ∧ ¬ s.Visible id name ∧ other = s.boundaryOf id := by
  unfold Declares at hafter
  rw [assign_eq] at hafter
  by_cases hself : other = s.owner id assigned
  · subst hself
    by_cases hsize : s.owner id assigned < s.all.size
    · rw [get_declare_self s assigned value hsize, Dict.keys_insert] at hafter
      split at hafter
      · exact absurd hafter hbefore
      · rename_i hnew
        obtain rfl : name = assigned :=
          List.mem_singleton.1 ((List.mem_append.1 hafter).resolve_left hbefore)
        rcases h.owner_cases id name with hdeclared | ⟨hunseen, howner, -⟩
        · exact absurd hdeclared hbefore
        · exact ⟨rfl, hunseen, howner⟩
    · simp only [declare, get, Array.getD_eq_getD_getElem?] at hafter
      rw [Array.getElem?_eq_none (by simpa using hsize)] at hafter
      cases hafter
  · rw [get_declare_ne s assigned value hself] at hafter
    exact absurd hafter hbefore

end Scopes

end DeskScript
