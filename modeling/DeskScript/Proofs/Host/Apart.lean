import DeskScript.Proofs.Host.State

set_option autoImplicit false

/-!
# Paths that lie apart

Of two paths that lie apart neither leads on from the other. What is written at one of them is not noticed at the other,
unless a list stands on the way that they share: reading goes through lists, but writing makes a mapping of the list, and
what was in it is gone. Main statement: `get_set_apart`.
-/

namespace DeskScript

namespace State

variable {ps qs : List String} {key other : String} {entries : Dict Plain}

/-- Neither of two paths leads on from the other. -/
structure Apart (ps qs : List String) : Prop where
  left : ¬ ps <+: qs
  right : ¬ qs <+: ps

theorem Apart.ne_nil (h : Apart ps qs) : qs ≠ [] := by
  rintro rfl
  exact h.right List.nil_prefix

theorem Apart.tail (h : Apart (key :: ps) (key :: qs)) : Apart ps qs where
  left hprefix := h.left (List.cons_prefix_cons.2 ⟨rfl, hprefix⟩)
  right hprefix := h.right (List.cons_prefix_cons.2 ⟨rfl, hprefix⟩)

/-- A list stands on the way that two paths share. -/
def ListBetween (node : Plain) (ps qs : List String) : Prop :=
  ∃ shared items, shared <+: ps ∧ shared <+: qs ∧ walk node shared = .ok (.list items)

theorem listBetween_list (items : List Plain) (ps qs : List String) : ListBetween (.list items) ps qs :=
  ⟨[], items, List.nil_prefix, List.nil_prefix, rfl⟩

def below (entries : Dict Plain) (key : String) : Plain := (entries.get? key).getD .null

theorem walk_dict (entries : Dict Plain) (key : String) (rest : List String) :
    walk (.dict entries) (key :: rest) = walk (below entries key) rest := rfl

theorem below_insert_self (entries : Dict Plain) (key : String) (value : Plain) :
    below (entries.insert key value) key = value := by
  rw [below, Dict.get?_insert_self]
  rfl

theorem below_insert_of_ne (entries : Dict Plain) (value : Plain) (h : other ≠ key) :
    below (entries.insert key value) other = below entries other := by
  rw [below, Dict.get?_insert_of_ne entries key other value h]
  rfl

theorem listBetween_cons : ListBetween (.dict entries) (key :: ps) (other :: qs) ↔
    key = other ∧ ListBetween (below entries key) ps qs := by
  constructor
  · rintro ⟨shared, items, hleft, hright, hwalk⟩
    cases shared with
    | nil => cases hwalk
    | cons first shared =>
      obtain ⟨rfl, hps⟩ := List.cons_prefix_cons.1 hleft
      obtain ⟨rfl, hqs⟩ := List.cons_prefix_cons.1 hright
      exact ⟨rfl, shared, items, hps, hqs, hwalk⟩
  · rintro ⟨rfl, shared, items, hleft, hright, hwalk⟩
    exact ⟨key :: shared, items, List.cons_prefix_cons.2 ⟨rfl, hleft⟩, List.cons_prefix_cons.2 ⟨rfl, hright⟩, hwalk⟩

/-- Below what is neither a mapping nor a list there is nothing. -/
theorem walk_leaf {node : Plain} (hleaf : ∀ key, child node key = .ok .null) (hqs : qs ≠ []) :
    walk node qs = .ok .null := by
  induction qs generalizing node with
  | nil => exact absurd rfl hqs
  | cons key rest ih =>
    have hstep : walk node (key :: rest) = walk .null rest := by
      rw [walk, hleaf]
      rfl
    rw [hstep]
    cases rest with
    | nil => rfl
    | cons next rest => exact ih (fun _ => rfl) (List.cons_ne_nil next rest)

theorem not_listBetween_leaf {node : Plain} (hleaf : ∀ key, child node key = .ok .null)
    (hnode : ∀ items, node ≠ .list items) : ¬ ListBetween node ps qs := by
  rintro ⟨shared, items, -, -, hwalk⟩
  by_cases hshared : shared = []
  · subst hshared
    exact hnode items (Except.ok.inj hwalk)
  · rw [walk_leaf hleaf hshared] at hwalk
    cases hwalk

def opened (node : Plain) : Dict Plain :=
  match node with
  | .dict inner => inner
  | _ => []

theorem put_cons (value : Plain) (hps : ps ≠ []) : put entries value (key :: ps) =
    entries.insert key (.dict (put (opened (below entries key)) value ps)) := by
  cases ps with
  | nil => exact absurd rfl hps
  | cons next rest =>
    rw [put]
    · cases hnode : entries.get? key with
      | none => simp [below, opened, hnode]
      | some node => cases node <;> simp [below, opened, hnode]
    · exact List.cons_ne_nil next rest

/-- By induction on the way that the paths share, along which writing keeps the mappings and replaces the rest. -/
theorem walk_put_apart (value : Plain) (h : Apart ps qs) :
    (¬ ListBetween (.dict entries) ps qs → walk (.dict (put entries value ps)) qs = walk (.dict entries) qs) ∧
    (ListBetween (.dict entries) ps qs → walk (.dict (put entries value ps)) qs = .ok .null) := by
  induction ps generalizing entries qs with
  | nil => exact absurd List.nil_prefix h.left
  | cons key ps ih =>
    obtain ⟨other, qs, rfl⟩ := List.exists_cons_of_ne_nil h.ne_nil
    rw [listBetween_cons]
    by_cases hkey : other = key
    · subst hkey
      have hps : ps ≠ [] := by
        rintro rfl
        exact h.left (List.cons_prefix_cons.2 ⟨rfl, List.nil_prefix⟩)
      have htail := h.tail
      rw [put_cons value hps, walk_dict, walk_dict, below_insert_self]
      simp only [true_and]
      have hnew : walk (.dict (put [] value ps)) qs = .ok .null := by
        have hnone : ∀ key, child (.dict []) key = .ok .null := fun _ => rfl
        rw [(ih htail).1 (not_listBetween_leaf hnone nofun), walk_leaf hnone htail.ne_nil]
      generalize below entries other = node
      cases node with
      | dict inner => exact ih htail
      | list items => exact ⟨fun hnone => absurd (listBetween_list items ps qs) hnone, fun _ => hnew⟩
      | null | bool | int | float | str =>
        refine ⟨fun _ => ?_, fun hlist => absurd hlist (not_listBetween_leaf (fun _ => rfl) nofun)⟩
        exact hnew.trans (walk_leaf (fun _ => rfl) htail.ne_nil).symm
    · refine ⟨fun _ => ?_, fun hlist => absurd hlist.1 (Ne.symm hkey)⟩
      have hput : ∃ node, put entries value (key :: ps) = entries.insert key node := by
        cases ps with
        | nil => exact ⟨value, rfl⟩
        | cons next rest => exact ⟨_, put_cons value (List.cons_ne_nil next rest)⟩
      obtain ⟨node, hput⟩ := hput
      rw [hput, walk_dict, walk_dict, below_insert_of_ne entries node hkey]

/-- **State is not disturbed.** Of two paths that lie apart, what is written at the one leaves what is read at the other, or
the failure of reading it. Only where a list stands on the way that they share, there is nothing to be read then. -/
theorem get_set_apart (s : State) (value : Plain) {path other : String} (h : Apart (components path) (components other)) :
    (¬ ListBetween (.dict s.data) (components path) (components other) →
      (s.set path value).get other = s.get other) ∧
    (ListBetween (.dict s.data) (components path) (components other) → (s.set path value).get other = .ok .null) :=
  walk_put_apart value h

/-- A list beside the way is no hindrance. -/
theorem get_set_apart_beside : Apart (components "a.b") (components "a.c.0") ∧
    ¬ ListBetween (.dict [("a", .dict [("c", .list [.int 1])])]) (components "a.b") (components "a.c.0") ∧
    (({ data := [("a", .dict [("c", .list [.int 1])])] } : State).set "a.b" .null).get "a.c.0" = .ok (.int 1) := by
  have hleft : components "a.b" = ["a", "b"] := by decide +kernel
  have hright : components "a.c.0" = ["a", "c", "0"] := by decide +kernel
  have hapart : Apart (components "a.b") (components "a.c.0") := by
    rw [hleft, hright]
    exact ⟨by decide, by decide⟩
  have hnone : ¬ ListBetween (.dict [("a", .dict [("c", .list [.int 1])])]) (components "a.b") (components "a.c.0") := by
    rw [hleft, hright, listBetween_cons]
    rintro ⟨-, hlist⟩
    exact absurd (listBetween_cons.1 hlist).1 (by decide)
  refine ⟨hapart, hnone, ?_⟩
  rw [(get_set_apart { data := [("a", .dict [("c", .list [.int 1])])] } .null hapart).1 hnone]
  rfl

/-- Two components of a list: what is written at the one replaces the list. -/
theorem list_is_replaced : Apart (components "a.x") (components "a.0") ∧
    ({ data := [("a", .list [.bool true])] } : State).get "a.0" = .ok (.bool true) ∧
    (({ data := [("a", .list [.bool true])] } : State).set "a.x" (.bool true)).get "a.0" = .ok .null := by
  have hleft : components "a.x" = ["a", "x"] := by decide +kernel
  have hright : components "a.0" = ["a", "0"] := by decide +kernel
  refine ⟨?_, rfl, rfl⟩
  rw [hleft, hright]
  exact ⟨by decide, by decide⟩

end State

end DeskScript
