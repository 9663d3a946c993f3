import DeskScript.Proofs.Number.Written

set_option autoImplicit false

/-!
# Trimming

A text is trimmed if neither end is blank, and then trimming leaves it as it is. Only blanks are taken off. Main
statements: `Text.trim_breaks`, `Text.trim_eq_self_iff`, `Text.count_trim`.
-/

namespace DeskScript.Text

open Number

variable {cs : List Char}

theorem breaks_dropWhile (kind : Char → Bool) (cs : List Char) : Breaks kind (cs.dropWhile kind) := by
  intro c hc
  have hhead := List.head?_dropWhile_not kind cs
  rw [Option.mem_def.1 hc] at hhead
  simpa using hhead

theorem trimEnd_begins (cs : List Char) : trimEnd cs <+: cs := by
  have hsuffix := List.dropWhile_suffix isBlank (l := cs.reverse)
  rw [← List.reverse_prefix, List.reverse_reverse] at hsuffix
  exact hsuffix

/-- Neither end of what is trimmed is blank: trimming the back leaves the front as it is. -/
theorem trim_breaks (cs : List Char) : Breaks isBlank (trim cs) ∧ Breaks isBlank (trim cs).reverse := by
  constructor
  · intro c hc
    obtain ⟨rest, hrest⟩ := trimEnd_begins (trimStart cs)
    refine breaks_dropWhile isBlank cs c ?_
    change c ∈ (trimStart cs).head?
    rw [← hrest, List.head?_append, Option.mem_def, Option.mem_def.1 (show c ∈ (trimEnd (trimStart cs)).head? from hc)]
    rfl
  · unfold trim trimEnd
    rw [List.reverse_reverse]
    exact breaks_dropWhile isBlank (trimStart cs).reverse

theorem trim_eq_self_iff : trim cs = cs ↔ Breaks isBlank cs ∧ Breaks isBlank cs.reverse := by
  constructor
  · intro h
    rw [← h]
    exact trim_breaks cs
  · rintro ⟨hfront, hback⟩
    rw [trim, trimStart, hfront.dropWhile, trimEnd, hback.dropWhile, List.reverse_reverse]

theorem trim_clear (h : ∀ c ∈ cs, isBlank c = false) : trim cs = cs :=
  trim_eq_self_iff.2 ⟨fun c hc => h c (List.mem_of_mem_head? hc),
    fun c hc => h c (List.mem_reverse.1 (List.mem_of_mem_head? hc))⟩

theorem count_trim {c : Char} (hc : isBlank c = false) (cs : List Char) : (trim cs).count c = cs.count c := by
  have hdrop (ds : List Char) : (ds.dropWhile isBlank).count c = ds.count c := by
    have hnone : (ds.takeWhile isBlank).count c = 0 := by
      refine List.count_eq_zero.2 fun hmem => ?_
      rw [List.all_eq_true.1 List.all_takeWhile c hmem] at hc
      contradiction
    calc (ds.dropWhile isBlank).count c = (ds.takeWhile isBlank ++ ds.dropWhile isBlank).count c := by
          rw [List.count_append, hnone, Nat.zero_add]
      _ = ds.count c := by rw [List.takeWhile_append_dropWhile]
  rw [trim, trimEnd, List.count_reverse, hdrop, List.count_reverse, trimStart, hdrop]

end DeskScript.Text
