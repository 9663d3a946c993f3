import DeskScript.Proofs.Scope.Growth

set_option autoImplicit false

/-!
# Assignments in a tree of scopes

Scopes that are made one inside another form a tree with the root at its end, so from every scope there is a way outwards
to a boundary. An assignment changes one binding of one scope on that way, and nothing that is looked up past it:
`assign_changes_one`.
-/

namespace DeskScript

namespace Scopes

/-- A tree of scopes: a root, further scopes inside those that are there, and names declared in any of them. -/
inductive Built : Scopes → Prop
  | root : Built root
  | extend {s : Scopes} (h : Built s) {parent : ScopeId} (hparent : parent < s.all.size) (label : String)
      (boundary : Bool) (bindings : Dict Value) : Built (s.extend parent label boundary bindings).2
  | declare {s : Scopes} (h : Built s) {id : ScopeId} (hid : id < s.all.size) (name : String) (value : Value) :
      Built (s.declare id name value)

/-- From the first scope outwards, the second is the nearest for which the test holds. -/
inductive Nearest (s : Scopes) (test : Scope → Bool) : ScopeId → ScopeId → Prop
  | here {id : ScopeId} (h : test (s.get id) = true) : Nearest s test id id
  | outer {id parent found : ScopeId} (h : test (s.get id) = false) (hparent : (s.get id).parent = some parent)
      (hfound : Nearest s test parent found) : Nearest s test id found

def declares (name : String) (scope : Scope) : Bool := scope.bindings.contains name

structure Nested (s : Scopes) : Prop where
  parent : ∀ id < s.all.size, ∀ parent, (s.get id).parent = some parent → parent < id
  outermost : ∀ id < s.all.size, (s.get id).parent = none → (s.get id).boundary = true

variable {s s' : Scopes} {test : Scope → Bool} {id other found : ScopeId} {name : String} {value : Value}

theorem size_declare (s : Scopes) (id : ScopeId) (name : String) (value : Value) :
    (s.declare id name value).all.size = s.all.size := Array.size_modify

theorem declare_absent (s : Scopes) {id : ScopeId} (h : ¬ id < s.all.size) (name : String) (value : Value) :
    s.declare id name value = s := by
  refine congrArg Scopes.mk (Array.ext_getElem? fun i => ?_)
  rw [Array.getElem?_modify]
  split
  · rename_i hsame
    subst hsame
    rw [Array.getElem?_eq_none (Nat.le_of_not_lt h), Option.map_none]
  · rfl

/-- A declaration changes no more of a scope than its bindings. -/
theorem get_declare_place (s : Scopes) (id other : ScopeId) (name : String) (value : Value) :
    ((s.declare id name value).get other).parent = (s.get other).parent ∧
    ((s.declare id name value).get other).boundary = (s.get other).boundary := by
  by_cases hself : other = id
  · subst hself
    by_cases hsize : other < s.all.size
    · rw [get_declare_self s name value hsize]
      exact ⟨rfl, rfl⟩
    · rw [s.declare_absent hsize]
      exact ⟨rfl, rfl⟩
  · rw [get_declare_ne s name value hself]
    exact ⟨rfl, rfl⟩

theorem get_extend_self (s : Scopes) (parent : ScopeId) (label : String) (boundary : Bool) (bindings : Dict Value) :
    (s.extend parent label boundary bindings).2.get s.all.size = { label, parent := some parent, boundary, bindings } := by
  simp only [extend, get, Array.getD_eq_getD_getElem?, Array.getElem?_push_size, Option.getD_some]

theorem Nested.extend (h : s.Nested) {parent : ScopeId} (hparent : parent < s.all.size) (label : String) (boundary : Bool)
    (bindings : Dict Value) : (s.extend parent label boundary bindings).2.Nested := by
  have hsize : (s.extend parent label boundary bindings).2.all.size = s.all.size + 1 := Array.size_push _
  have hcases (id : ScopeId) (hid : id < s.all.size + 1) : id < s.all.size ∨ id = s.all.size :=
    Nat.lt_or_eq_of_le (Nat.le_of_lt_succ hid)
  constructor
  · intro id hid outer houter
    rcases hcases id (hsize ▸ hid) with hold | rfl
    · rw [get_extend s parent label boundary bindings hold] at houter
      exact h.parent id hold outer houter
    · rw [get_extend_self] at houter
      cases houter
      exact hparent
  · intro id hid houter
    rcases hcases id (hsize ▸ hid) with hold | rfl
    · rw [get_extend s parent label boundary bindings hold] at houter ⊢
      exact h.outermost id hold houter
    · rw [get_extend_self] at houter
      cases houter

theorem Nested.declare (h : s.Nested) (id : ScopeId) (name : String) (value : Value) : (s.declare id name value).Nested := by
  have hsize := s.size_declare id name value
  constructor
  · intro other hother parent hparent
    rw [(s.get_declare_place id other name value).1] at hparent
    exact h.parent other (hsize ▸ hother) parent hparent
  · intro other hother hparent
    rw [(s.get_declare_place id other name value).1] at hparent
    rw [(s.get_declare_place id other name value).2]
    exact h.outermost other (hsize ▸ hother) hparent

theorem Built.nested (h : s.Built) : s.Nested := by
  induction h with
  | root =>
    constructor
    · intro id hid parent hparent
      obtain rfl : id = 0 := Nat.lt_one_iff.1 hid
      cases hparent
    · intro id hid _
      obtain rfl : id = 0 := Nat.lt_one_iff.1 hid
      rfl
  | extend _ hparent label boundary bindings ih => exact ih.extend hparent label boundary bindings
  | declare _ _ name value ih => exact ih.declare _ name value

theorem Nearest.unique (h : s.Nearest test id found) (h' : s.Nearest test id other) : found = other := by
  induction h with
  | here hhere =>
    cases h' with
    | here _ => rfl
    | outer hnot _ _ => cases hhere.symm.trans hnot
  | outer hnot hparent _ ih =>
    cases h' with
    | here hhere => cases hhere.symm.trans hnot
    | outer _ hparent' hfound' =>
      obtain rfl := Option.some.inj (hparent.symm.trans hparent')
      exact ih hfound'

/-- In a tree, looking outwards finds the nearest scope. -/
theorem Nested.nearest_eq_some_iff (h : s.Nested) (hid : id < s.all.size) :
    s.nearest test id = some found ↔ s.Nearest test id found := by
  induction id using Nat.strongRecOn with
  | ind id ih =>
    rw [nearest_eq]
    constructor
    · intro hfound
      split at hfound
      · rename_i hhere
        cases hfound
        exact .here hhere
      · rename_i hnot
        obtain ⟨parent, hparent, hfound⟩ := Option.bind_eq_some_iff.1 hfound
        have hlt := h.parent id hid parent hparent
        rw [if_pos hlt] at hfound
        exact .outer (Bool.eq_false_iff.2 hnot) hparent ((ih parent hlt (Nat.lt_trans hlt hid)).1 hfound)
    · intro hfound
      cases hfound with
      | here hhere => exact if_pos hhere
      | outer hnot hparent hfound =>
        have hlt := h.parent id hid _ hparent
        rw [if_neg (Bool.eq_false_iff.1 hnot), hparent, Option.bind_some, if_pos hlt]
        exact (ih _ hlt (Nat.lt_trans hlt hid)).2 hfound

theorem Nested.nearest_le (h : s.Nested) (hid : id < s.all.size) (hfound : s.Nearest test id found) : found ≤ id := by
  induction hfound with
  | here _ => exact Nat.le_refl _
  | outer _ hparent _ ih =>
    have hlt := h.parent _ hid _ hparent
    exact Nat.le_trans (ih (Nat.lt_trans hlt hid)) (Nat.le_of_lt hlt)

/-- There is a boundary on the way outwards: the way ends where there is no scope around. -/
theorem Nested.exists_boundary (h : s.Nested) (hid : id < s.all.size) : ∃ found, s.Nearest (·.boundary) id found := by
  induction id using Nat.strongRecOn with
  | ind id ih =>
    by_cases hhere : (s.get id).boundary = true
    · exact ⟨id, .here hhere⟩
    · cases hparent : (s.get id).parent with
      | none => exact absurd (h.outermost id hid hparent) hhere
      | some parent =>
        have hlt := h.parent id hid parent hparent
        obtain ⟨found, hfound⟩ := ih parent hlt (Nat.lt_trans hlt hid)
        exact ⟨found, .outer (Bool.eq_false_iff.2 hhere) hparent hfound⟩

/-- What holds of a scope on the way outwards has a nearest scope for which it holds. -/
theorem Nearest.exists_nearest (h : s.Nearest test id found) (test' : Scope → Bool) (hfound : test' (s.get found) = true) :
    ∃ nearer, s.Nearest test' id nearer := by
  induction h with
  | here _ => exact ⟨_, .here hfound⟩
  | @outer id parent found _ hparent _ ih =>
    by_cases hhere : test' (s.get id) = true
    · exact ⟨id, .here hhere⟩
    · obtain ⟨nearer, hnearer⟩ := ih hfound
      exact ⟨nearer, .outer (Bool.eq_false_iff.2 hhere) hparent hnearer⟩

theorem Nested.boundaryOf_nearest (h : s.Nested) (hid : id < s.all.size) :
    s.Nearest (·.boundary) id (s.boundaryOf id) := by
  obtain ⟨found, hfound⟩ := h.exists_boundary hid
  have hnearest := (h.nearest_eq_some_iff hid).2 hfound
  rwa [boundaryOf, hnearest, Option.getD_some]

/-- What is assigned from a scope is bound in the nearest scope that declares the name, or else at the nearest boundary. -/
theorem Nested.owner_nearest (h : s.Nested) (hid : id < s.all.size) (name : String) :
    s.Nearest (declares name) id (s.owner id name) ∨
    (∀ found, ¬ s.Nearest (declares name) id found) ∧ s.Nearest (·.boundary) id (s.owner id name) := by
  unfold owner
  cases hfound : s.declaring? id name with
  | some found => exact .inl ((h.nearest_eq_some_iff hid).1 hfound)
  | none =>
    refine .inr ⟨fun found hnearest => ?_, h.boundaryOf_nearest hid⟩
    cases hfound.symm.trans ((h.nearest_eq_some_iff hid).2 hnearest)

theorem Nested.owner_lt (h : s.Nested) (hid : id < s.all.size) (name : String) : s.owner id name < s.all.size := by
  rcases h.owner_nearest hid name with hnearest | ⟨-, hnearest⟩
  · exact Nat.lt_of_le_of_lt (h.nearest_le hid hnearest) hid
  · exact Nat.lt_of_le_of_lt (h.nearest_le hid hnearest) hid

theorem get?_declare_ne (s : Scopes) (id scope : ScopeId) {name other : String} (value : Value) (h : other ≠ name) :
    ((s.declare id name value).get scope).bindings.get? other = (s.get scope).bindings.get? other := by
  by_cases hself : scope = id
  · subst hself
    by_cases hsize : scope < s.all.size
    · rw [get_declare_self s name value hsize]
      exact Dict.get?_insert_of_ne _ _ _ _ h
    · rw [s.declare_absent hsize]
  · rw [get_declare_ne s name value hself]

/-- Looking outwards goes the same way through two trees that differ in nothing the test sees. -/
theorem nearest_congr (hparent : ∀ scope, (s'.get scope).parent = (s.get scope).parent)
    (htest : ∀ scope, test (s'.get scope) = test (s.get scope)) : s'.nearest test id = s.nearest test id := by
  induction id using Nat.strongRecOn with
  | ind id ih =>
    rw [nearest_eq s', nearest_eq s, htest, hparent]
    congr 1
    refine Option.bind_congr fun parent _ => ?_
    split
    · rename_i hlt
      exact ih parent hlt
    · rfl

theorem lookup_declare_ne (s : Scopes) (id scope : ScopeId) {name other : String} (value : Value) (h : other ≠ name) :
    (s.declare id name value).lookup? scope other = s.lookup? scope other := by
  have hsame : (s.declare id name value).declaring? scope other = s.declaring? scope other := by
    refine nearest_congr (fun outer => (s.get_declare_place id outer name value).1) fun outer => ?_
    exact congrArg Option.isSome (s.get?_declare_ne id outer value h)
  unfold lookup?
  rw [hsame]
  exact Option.bind_congr fun found _ => s.get?_declare_ne id found value h

/-- After a declaration, the way outwards from a scope ends for its name in the scope that was changed, or where it ended
before, in another scope. -/
theorem declaring_declare (s : Scopes) (hid : id < s.all.size) (scope : ScopeId) (name : String) (value : Value) :
    (s.declare id name value).declaring? scope name = some id ∨
    (s.declare id name value).declaring? scope name = s.declaring? scope name ∧ s.declaring? scope name ≠ some id := by
  unfold declaring?
  induction scope using Nat.strongRecOn with
  | ind scope ih =>
    rw [nearest_eq s, nearest_eq (s.declare id name value)]
    by_cases hself : scope = id
    · subst hself
      have hthere : ((s.declare scope name value).get scope).bindings.contains name = true := by
        rw [get_declare_self s name value hid, Dict.contains_iff, Dict.mem_keys_iff]
        exact ⟨value, Dict.get?_insert_self _ _ _⟩
      exact .inl (if_pos hthere)
    · rw [get_declare_ne s name value hself]
      split
      · exact .inr ⟨rfl, fun hsame => hself (Option.some.inj hsame)⟩
      · cases (s.get scope).parent with
        | none => exact .inr ⟨rfl, nofun⟩
        | some parent =>
          simp only [Option.bind_some]
          split
          · rename_i hlt
            exact ih parent hlt
          · exact .inr ⟨rfl, nofun⟩

/-- A declaration is seen only by those who look for its name and find it in the scope that was changed. -/
theorem declaring_of_lookup_ne (hid : id < s.all.size) {scope : ScopeId} {other : String}
    (h : (s.declare id name value).lookup? scope other ≠ s.lookup? scope other) :
    other = name ∧ (s.declare id name value).declaring? scope name = some id := by
  by_cases hname : other = name
  · subst hname
    refine ⟨rfl, (s.declaring_declare hid scope other value).resolve_right fun ⟨hsame, hne⟩ => h ?_⟩
    unfold lookup?
    rw [hsame]
    refine Option.bind_congr fun found hfound => ?_
    have hother : found ≠ id := by
      rintro rfl
      exact hne hfound
    rw [get_declare_ne s other value hother]
  · exact absurd (s.lookup_declare_ne id scope value hname) h

/-- Where a name is assigned, it has its value afterwards. -/
theorem Nested.lookup_assign (h : s.Nested) (hid : id < s.all.size) (name : String) (value : Value) :
    (s.assign id name value).lookup? id name = some value := by
  have howner := h.owner_lt hid name
  have hsize := s.size_declare (s.owner id name) name value
  have hself := get_declare_self s name value howner
  have hvalue : ((s.assign id name value).get (s.owner id name)).bindings.get? name = some value := by
    rw [assign_eq, hself]
    exact Dict.get?_insert_self _ _ _
  -- The way outwards to the owner ends there for this name: what was changed is that the owner declares it.
  suffices hdeclaring : (s.assign id name value).declaring? id name = some (s.owner id name) by
    rw [lookup?, hdeclaring, Option.bind_some, hvalue]
  refine (s.declaring_declare howner id name value).resolve_right fun ⟨hsame, hne⟩ => ?_
  rcases h.owner_nearest hid name with hfound | ⟨hnone, hboundary⟩
  · exact hne ((h.nearest_eq_some_iff hid).2 hfound)
  · have hafter := h.declare (s.owner id name) name value
    have hway : (s.declare (s.owner id name) name value).Nearest (·.boundary) id (s.owner id name) := by
      rw [← hafter.nearest_eq_some_iff (hsize.symm ▸ hid), nearest_congr (fun scope => (s.get_declare_place _ scope name value).1)
        fun scope => (s.get_declare_place _ scope name value).2]
      exact (h.nearest_eq_some_iff hid).2 hboundary
    obtain ⟨nearer, hnearer⟩ := hway.exists_nearest (declares name)
      ((Dict.contains_iff _ _).2 (Dict.mem_keys_iff.2 ⟨value, hvalue⟩))
    have hfound := hsame.symm.trans ((hafter.nearest_eq_some_iff (hsize.symm ▸ hid)).2 hnearer)
    exact hnone nearer ((h.nearest_eq_some_iff hid).1 hfound)

end Scopes

/-- In a tree of scopes, an assignment from any scope changes one binding: in the nearest scope outwards that declares the
name, or if there is none, at the nearest boundary, which is there. The name then has the value where it was assigned, and
from any scope, what a name means changes only for this one name, where the way outwards ends in the changed scope. -/
theorem Scopes.assign_changes_one {s : Scopes} (h : s.Built) {id : ScopeId} (hid : id < s.all.size) (name : String)
    (value : Value) :
    ∃ owner < s.all.size,
      (s.Nearest (declares name) id owner ∨
        (∀ found, ¬ s.Nearest (declares name) id found) ∧ s.Nearest (·.boundary) id owner) ∧
      (s.assign id name value).all.size = s.all.size ∧
      (∀ scope, scope ≠ owner → (s.assign id name value).get scope = s.get scope) ∧
      (∃ bindings, (s.assign id name value).get owner = { s.get owner with bindings } ∧ bindings.get? name = some value ∧
        ∀ other, other ≠ name → bindings.get? other = (s.get owner).bindings.get? other) ∧
      (s.assign id name value).lookup? id name = some value ∧
      ∀ scope < s.all.size, ∀ other, (s.assign id name value).lookup? scope other ≠ s.lookup? scope other →
        other = name ∧ (s.assign id name value).Nearest (declares name) scope owner := by
  have hnested := h.nested
  have howner := hnested.owner_lt hid name
  have hnearest := hnested.owner_nearest hid name
  have hafter := hnested.declare (s.owner id name) name value
  have hsize := s.size_declare (s.owner id name) name value
  have hself := get_declare_self s name value howner
  refine ⟨s.owner id name, howner, hnearest, hsize, fun scope hne => get_declare_ne s name value hne, ?_, ?_, ?_⟩
  · exact ⟨_, hself, Dict.get?_insert_self _ _ _, fun other hne => Dict.get?_insert_of_ne _ _ _ _ hne⟩
  · exact hnested.lookup_assign hid name value
  · intro scope hscope other hchanged
    obtain ⟨hname, hdeclaring⟩ := declaring_of_lookup_ne howner hchanged
    exact ⟨hname, (hafter.nearest_eq_some_iff (hsize.symm ▸ hscope)).1 hdeclaring⟩

def Scopes.inCall : Scopes := ((root.extend 0 "call" true []).2.extend 1 "block" false []).2

theorem Scopes.inCall_built : inCall.Built := by
  have hcall : (root.extend 0 "call" true []).2.Built := .extend .root Nat.one_pos _ _ _
  exact .extend hcall (Nat.lt_succ_self 1) _ _ _

/-- A new name is bound in the frame around the block, and not at the root. -/
theorem Scopes.assign_changes_one_inCall : inCall.Built ∧ 2 < inCall.all.size ∧
    (inCall.assign 2 "x" .null).get 0 = inCall.get 0 ∧ (inCall.assign 2 "x" .null).get 2 = inCall.get 2 ∧
    (inCall.assign 2 "x" .null).lookup? 2 "x" = some .null ∧
    (inCall.assign 2 "x" .null).lookup? 0 "x" = inCall.lookup? 0 "x" := by
  have hsize : 2 < inCall.all.size := Nat.lt_succ_self 2
  obtain ⟨owner, -, hwhere, -, hothers, -, hvalue, hchanged⟩ := assign_changes_one inCall_built hsize "x" .null
  obtain rfl : owner = 1 := by
    rcases hwhere with hdeclares | ⟨-, hboundary⟩
    · cases hdeclares with
      | here h => cases h
      | outer _ hparent hfound =>
        cases hparent
        cases hfound with
        | here h => cases h
        | outer _ hparent hfound =>
          cases hparent
          cases hfound with
          | here h => cases h
          | outer _ hparent _ => cases hparent
    · exact hboundary.unique (.outer rfl rfl (.here rfl))
  refine ⟨inCall_built, hsize, hothers 0 nofun, hothers 2 nofun, hvalue, ?_⟩
  refine Classical.byContradiction fun hne => ?_
  obtain ⟨-, hnearest⟩ := hchanged 0 (Nat.lt_trans Nat.two_pos hsize) "x" hne
  cases hnearest with
  | outer _ hparent _ =>
    rw [hothers 0 nofun] at hparent
    cases hparent

end DeskScript
