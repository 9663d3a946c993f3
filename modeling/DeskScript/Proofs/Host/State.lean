import DeskScript.Proofs.Json.RoundTrip

set_option autoImplicit false

/-!
# State is read back

Writing a path makes a mapping of every component but the last, so reading the path meets mappings only and ends at what
was written, whatever the state was before. Storage is the part of the state under one name. Main statement:
`getState_setState`.
-/

namespace DeskScript

namespace Text

theorem splitAux_ne_nil (sep : List Char) (skip : Nat) (part : List Char) (parts : List (List Char)) (text : List Char) :
    splitAux sep skip part parts text ≠ [] := by
  induction text generalizing skip part parts with
  | nil => simp [splitAux]
  | cons c text ih =>
    cases skip with
    | zero =>
      rw [splitAux]
      split
      · exact ih _ _ _
      · exact ih _ _ _
    | succ skip => exact ih _ _ _

theorem splitAtChar_ne_nil (sep : Char) (s : String) : splitAtChar sep s ≠ [] :=
  mt List.map_eq_nil_iff.1 (splitAux_ne_nil [sep] 0 [] [] s.toList)

end Text

namespace State

theorem child_insert (entries : Dict Plain) (key : String) (value : Plain) :
    child (.dict (entries.insert key value)) key = .ok value := by
  rw [child, Dict.get?_insert_self]
  rfl

/-- What stands in the way of a path is replaced, so the walk is through mappings. -/
theorem walk_put (entries : Dict Plain) (value : Plain) {keys : List String} (hkeys : keys ≠ []) :
    walk (.dict (put entries value keys)) keys = .ok value := by
  induction keys generalizing entries with
  | nil => exact absurd rfl hkeys
  | cons key rest ih =>
    rw [walk]
    cases rest with
    | nil =>
      rw [put, child_insert]
      rfl
    | cons next rest =>
      rw [put, child_insert]
      · exact ih _ (List.cons_ne_nil next rest)
      · exact List.cons_ne_nil next rest

theorem get_set (s : State) (path : String) (value : Plain) : (s.set path value).get path = .ok value :=
  walk_put s.data value (Text.splitAtChar_ne_nil '.' path)

end State

variable {h : Heap} {v : Value}

theorem find?_getState : Builtin.find? "getState" = some (.desk .getState) :=
  Builtin.find?_desk (by simp [DeskFn.table])

theorem find?_setState : Builtin.find? "setState" = some (.desk .setState) :=
  Builtin.find?_desk (by simp [DeskFn.table])

theorem find?_getStorage : Builtin.find? "getStorage" = some (.desk .getStorage) :=
  Builtin.find?_desk (by simp [DeskFn.table])

theorem find?_setStorage : Builtin.find? "setStorage" = some (.desk .setStorage) :=
  Builtin.find?_desk (by simp [DeskFn.table])

def Host.stored (host : Host) (path : String) (h : Heap) (v : Value) : Host :=
  { host with state := host.state.set path (h.plain v) }

/-- A path that a value was written to is read, on any heap, as a mirror of the value. -/
theorem reading_stored (hv : h.Treelike v) (host : Host) (path : String) (g : Heap) :
    ∃ w g', DeskFn.reading g (host.stored path h v) (DeskFn.stateAt (host.stored path h v) path) =
        .gives g' (host.stored path h v) w ∧ h.Mirrors g' v w ∧ g.Extends g' := by
  obtain ⟨w, g', hplain, hmirrors, hextends⟩ := Heap.restores_unfold hv.sound g
  have hstate : DeskFn.stateAt (host.stored path h v) path = .ok (h.plain v) := by
    rw [DeskFn.stateAt, Host.stored, State.get_set]
  refine ⟨w, g', ?_, hmirrors, hextends⟩
  simp only [hstate, DeskFn.reading, Heap.plain, Heap.tree, hplain]
  rfl

/-- A function of a text gives, on any heap and with this host, a mirror of the value. -/
def Heap.Recalls (h : Heap) (v : Value) (name key : String) (host : Host) : Prop :=
  ∀ g, ∃ w g', Builtin.call name g host [.str key] = .gives g' host w ∧ h.Mirrors g' v w ∧ g.Extends g'

/-- **State is read back.** What a value without cycles writes to a path of any state is read there, on any heap, as a
mirror of the value, and so is what it writes to a key of the storage. -/
theorem getState_setState (hv : h.Treelike v) (host : Host) (key : String) :
    (∃ host', Builtin.call "setState" h host [.str key, v] = ⟨.ok (.answer (.argument 1)), h, host'⟩ ∧
        h.Recalls v "getState" key host') ∧
      ∃ host', Builtin.call "setStorage" h host [.str key, v] = .gives h host' (.bool true) ∧
        h.Recalls v "getStorage" key host' := by
  constructor
  · refine ⟨host.stored key h v, Builtin.call_eq find?_setState rfl rfl, fun g => ?_⟩
    obtain ⟨w, g', hreads, hmirrors⟩ := reading_stored hv host key g
    exact ⟨w, g', Builtin.call_gives find?_getState rfl hreads, hmirrors⟩
  · refine ⟨host.stored ("storage." ++ key) h v, Builtin.call_gives find?_setStorage rfl rfl, fun g => ?_⟩
    obtain ⟨w, g', hreads, hmirrors⟩ := reading_stored hv host ("storage." ++ key) g
    exact ⟨w, g', Builtin.call_gives find?_getStorage rfl hreads, hmirrors⟩

/-- An empty component counts, and the list that stands in the way is replaced. -/
theorem getState_setState_sharing : sharingHeap.Treelike (.arr 0) ∧
    ((∃ host', Builtin.call "setState" sharingHeap { state := ⟨[("a", .list [.int 1])]⟩ } [.str "a..0", .arr 0] =
        ⟨.ok (.answer (.argument 1)), sharingHeap, host'⟩ ∧ sharingHeap.Recalls (.arr 0) "getState" "a..0" host') ∧
      ∃ host', Builtin.call "setStorage" sharingHeap { state := ⟨[("a", .list [.int 1])]⟩ } [.str "a..0", .arr 0] =
        .gives sharingHeap host' (.bool true) ∧ sharingHeap.Recalls (.arr 0) "getStorage" "a..0" host') :=
  ⟨regular_sharingHeap.treelike, getState_setState regular_sharingHeap.treelike _ "a..0"⟩

end DeskScript
