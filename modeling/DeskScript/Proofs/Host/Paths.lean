import DeskScript.Host.Path

set_option autoImplicit false

/-!
# Places above places

A place is above another if the other goes on after it with a slash. The places above a path are its parent and those
above its parent; a path has a parent if something stands before its last slash.
-/

namespace DeskScript.Path

variable {key below : String}

/-- The first place is above the second. Nothing is above the first slash of a text that begins with one. -/
def Above (key below : String) : Prop := key ≠ "" ∧ (key ++ "/").toList <+: below.toList

instance (key below : String) : Decidable (Above key below) :=
  inferInstanceAs (Decidable (_ ∧ _))

theorem above_iff_split : Above key below ↔ key ≠ "" ∧ ∃ base, below.toList = key.toList ++ '/' :: base := by
  refine and_congr_right fun _ => ?_
  rw [String.toList_append]
  constructor
  · rintro ⟨base, hbase⟩
    exact ⟨base, by simpa using hbase.symm⟩
  · rintro ⟨base, hbase⟩
    exact ⟨base, by simpa using hbase.symm⟩

theorem Above.trans {mid : String} (hfirst : Above key mid) (hthen : Above mid below) : Above key below :=
  ⟨hfirst.1, hfirst.2.trans ((List.prefix_append _ _).trans (String.toList_append ▸ hthen.2))⟩

theorem not_above_self (key : String) : ¬ Above key key := by
  intro h
  have hlength := h.2.length_le
  rw [String.toList_append, List.length_append] at hlength
  exact Nat.lt_irrefl _ hlength

theorem not_above_of_no_slash (h : '/' ∉ below.toList) : ¬ Above key below := by
  intro habove
  obtain ⟨base, hbase⟩ := (above_iff_split.1 habove).2
  exact h (by simp [hbase])

/-- A path is its parent, a slash and a last part; without a slash it has no parent. -/
theorem parent_split (key : String) : ('/' ∉ key.toList ∧ parent key = "") ∨
    ∃ base, '/' ∉ base ∧ key.toList = (parent key).toList ++ '/' :: base := by
  have hparent : parent key = String.ofList ((key.toList.reverse.dropWhile (· ≠ '/')).drop 1).reverse := rfl
  have htext : key.toList.reverse.takeWhile (· ≠ '/') ++ key.toList.reverse.dropWhile (· ≠ '/') = key.toList.reverse :=
    List.takeWhile_append_dropWhile
  have hlast : '/' ∉ key.toList.reverse.takeWhile (· ≠ '/') := by
    intro hmem
    simpa using List.all_eq_true.1 List.all_takeWhile _ hmem
  cases hrest : key.toList.reverse.dropWhile (· ≠ '/') with
  | nil =>
    rw [hrest, List.append_nil] at htext
    rw [htext, List.mem_reverse] at hlast
    exact .inl ⟨hlast, by rw [hparent, hrest]; rfl⟩
  | cons c rest =>
    have hne : key.toList.reverse.dropWhile (· ≠ '/') ≠ [] := by
      rw [hrest]
      exact List.cons_ne_nil c rest
    have hc : c = '/' := by
      have hhead := List.head_dropWhile_not (· ≠ '/') hne
      simpa only [hrest, List.head_cons, decide_eq_false_iff_not, Classical.not_not] using hhead
    refine .inr ⟨(key.toList.reverse.takeWhile (· ≠ '/')).reverse, mt List.mem_reverse.1 hlast, ?_⟩
    rw [hrest, hc] at htext
    rw [hparent, hrest, String.toList_ofList]
    simpa using (congrArg List.reverse htext).symm

theorem parent_length_lt (h : key ≠ "") : (parent key).length < key.length := by
  rcases parent_split key with ⟨-, hparent⟩ | ⟨base, -, hkey⟩
  · rw [hparent]
    exact Nat.pos_of_ne_zero fun hzero => h (String.length_eq_zero_iff.1 hzero)
  · have hlength := congrArg List.length hkey
    rw [List.length_append, List.length_cons, String.length_toList, String.length_toList] at hlength
    omega

/-- The places above a path are its parent and the places above its parent. -/
theorem above_iff : Above key below ↔ key ≠ "" ∧ (key = parent below ∨ Above key (parent below)) := by
  rcases parent_split below with ⟨hnone, hparent⟩ | ⟨base, hbase, hbelow⟩
  · have hempty : ¬ Above key "" := not_above_of_no_slash (by simp)
    rw [hparent]
    exact ⟨fun h => absurd h (not_above_of_no_slash hnone), fun ⟨hne, h⟩ => (h.elim hne hempty).elim⟩
  · refine and_congr_right fun hne => ?_
    have hslash : (key ++ "/").toList = key.toList ++ ['/'] := String.toList_append
    rw [Above, hslash, hbelow, ← String.toList_inj]
    constructor
    · rintro ⟨more, hmore⟩
      rw [List.append_assoc, List.append_eq_append_iff] at hmore
      rcases hmore with ⟨between, hparent, hrest⟩ | ⟨between, hkey, hrest⟩
      · cases between with
        | nil => exact .inl (by simpa using hparent.symm)
        | cons c between =>
          obtain ⟨rfl, -⟩ := List.cons.inj hrest
          exact .inr ⟨hne, between, by simp [hparent]⟩
      · cases between with
        | nil => exact .inl (by simpa using hkey)
        | cons c between =>
          -- The slash after the first place would stand in the last part of the path.
          have hlate : '/' ∈ base := by
            rw [List.cons_append] at hrest
            rw [(List.cons.inj hrest).2]
            simp
          exact absurd hlate hbase
    · rintro (heq | ⟨-, habove⟩)
      · rw [heq]
        exact ⟨base, by simp⟩
      · exact habove.trans (List.prefix_append _ _)

theorem parent_above (hslash : parent key ≠ "") : Above (parent key) key :=
  above_iff.2 ⟨hslash, .inl rfl⟩

end DeskScript.Path
