import DeskScript.Builtin.Basic
import Mathlib.Data.List.Nodup

set_option autoImplicit false

/-!
# Calls of built-in functions

A name stands for one function at most. So a call with arguments that fit the signature of a function under a name of its
table applies this function. Main statements: `Builtin.find?_of_mem`, `Builtin.call_eq`.
-/

namespace DeskScript

def Heap.plus (h : Heap) (items : List Value) : Heap := (h.newArray items.toArray).2

theorem Heap.items_plus (h : Heap) (items : List Value) : ((h.plus items).items h.arrays.size).toList = items := by
  rw [plus, items_newArray_self]

def Reached.gives (h : Heap) (host : Host) (v : Value) : Reached := ⟨.ok (.answer (.value v)), h, host⟩

def Reached.makes (h : Heap) (host : Host) (items : List Value) : Reached :=
  .gives (h.plus items) host (.arr h.arrays.size)

namespace Builtin

variable {name : String} {f : Builtin}

theorem names_distinct : (all.map (·.1)).Nodup := by decide +kernel

theorem find?_of_mem (hmem : (name, f) ∈ all) : find? name = some f := by
  obtain ⟨before, later, hall⟩ := List.append_of_mem hmem
  have hdistinct := names_distinct
  rw [hall, List.map_append, List.nodup_append] at hdistinct
  refine List.lookup_eq_some_iff.2 ⟨before, later, hall, fun e he => ?_⟩
  have hother : e.1 ≠ name := hdistinct.2.2 e.1 (List.mem_map_of_mem he) name List.mem_cons_self
  exact bne_iff_ne.2 hother.symm

theorem find?_text {f : TextFn} (hmem : (name, f) ∈ TextFn.table) : find? name = some (.text f) :=
  find?_of_mem (List.mem_append_left _ (List.mem_append_left _ (List.mem_append_left _ (List.mem_append_left _
    (List.mem_append_left _ (List.mem_append_right _ (List.mem_map_of_mem hmem)))))))

theorem find?_sequence {f : SequenceFn} (hmem : (name, f) ∈ SequenceFn.table) : find? name = some (.sequence f) :=
  find?_of_mem (List.mem_append_left _ (List.mem_append_left _ (List.mem_append_left _ (List.mem_append_left _
    (List.mem_append_right _ (List.mem_map_of_mem hmem))))))

theorem find?_array {f : ArrayFn} (hmem : (name, f) ∈ ArrayFn.table) : find? name = some (.array f) :=
  find?_of_mem (List.mem_append_left _ (List.mem_append_left _ (List.mem_append_left _
    (List.mem_append_right _ (List.mem_map_of_mem hmem)))))

theorem find?_conversion {f : ConversionFn} (hmem : (name, f) ∈ ConversionFn.table) :
    find? name = some (.conversion f) :=
  find?_of_mem (List.mem_append_left _ (List.mem_append_right _ (List.mem_map_of_mem hmem)))

theorem find?_desk {f : DeskFn} (hmem : (name, f) ∈ DeskFn.table) : find? name = some (.desk f) :=
  find?_of_mem (List.mem_append_right _ (List.mem_map_of_mem hmem))

variable {h g : Heap} {host host' : Host} {args : List Value}

/-- A call with arguments that fit applies the function and names it in a failure. -/
theorem call_eq {r : Reached} (hfind : find? name = some f) (hfits : f.signature.complaint? name args = none)
    (happly : f.apply h host args = r) :
    call name h host args = { r with result := r.result.mapError (wrap f.signature.needsHost name) } := by
  rw [call, hfind]
  dsimp only
  rw [hfits, happly]

theorem call_gives {v : Value} (hfind : find? name = some f) (hfits : f.signature.complaint? name args = none)
    (happly : f.apply h host args = .gives g host' v) : call name h host args = .gives g host' v :=
  call_eq hfind hfits happly

end Builtin

end DeskScript
