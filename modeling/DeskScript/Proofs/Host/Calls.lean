import DeskScript.Host.Files
import DeskScript.Proofs.Host.Paths

set_option autoImplicit false

/-!
# Calls of the file system

What one call does to the files and to the directories. A call that fails does nothing: each procedure looks before it
changes anything. Main statements: `after_of_error`, `content_after`, `isDirectory_after`.
-/

namespace DeskScript

inductive FileCall where
  | read (path : String)
  | write (path content : String)
  | mkdir (path : String)
  | delete (path : String)
  | exists_ (path : String)

inductive FileAnswer where
  | content (text : String)
  | done
  | found (b : Bool)
  deriving DecidableEq

def FileCall.perform : FileCall → FileProcedure FileAnswer
  | read path => do return .content (← MemoryFiles.read path)
  | write path content => do
    MemoryFiles.write path content
    return .done
  | mkdir path => do
    MemoryFiles.mkdir path
    return .done
  | delete path => do
    MemoryFiles.delete path
    return .done
  | exists_ path => do return .found (← MemoryFiles.exists_ path)

def FileCall.Enters : FileCall → String → Prop
  | write path _, key => Path.Above key (Path.normalize path)
  | mkdir path, key => key ≠ "" ∧ (key = Path.normalize path ∨ Path.Above key (Path.normalize path))
  | _, _ => False

namespace MemoryFiles

variable {m : MemoryFiles} {c : FileCall} {path content key : String}

def answer (m : MemoryFiles) (c : FileCall) : Except Fault FileAnswer :=
  match c.perform.run m with
  | .ok a _ => .ok a
  | .error f _ => .error f

def after (m : MemoryFiles) (c : FileCall) : MemoryFiles :=
  match c.perform.run m with
  | .ok _ m => m
  | .error _ m => m

def IsFile (m : MemoryFiles) (key : String) : Prop := key ∈ m.files.keys

def IsDirectory (m : MemoryFiles) (key : String) : Prop := key ∈ m.directories

instance (m : MemoryFiles) (key : String) : Decidable (m.IsFile key) := inferInstanceAs (Decidable (_ ∈ _))

instance (m : MemoryFiles) (key : String) : Decidable (m.IsDirectory key) := inferInstanceAs (Decidable (_ ∈ _))

def Writes (m : MemoryFiles) (c : FileCall) (key content : String) : Prop :=
  ∃ path, c = .write path content ∧ Path.normalize path = key ∧ m.answer c = .ok .done

def Deletes (m : MemoryFiles) (c : FileCall) (key : String) : Prop :=
  ∃ path, c = .delete path ∧ Path.normalize path = key ∧ m.answer c = .ok .done

def Makes (m : MemoryFiles) (c : FileCall) (key : String) : Prop := c.Enters key ∧ m.answer c = .ok .done

theorem mem_addDirectories {fuel : Nat} {ds : List String} (hfuel : path.length < fuel) :
    key ∈ addDirectories fuel path ds ↔ key ∈ ds ∨ key ≠ "" ∧ (key = path ∨ Path.Above key path) := by
  -- A parent is shorter than its child, so the fuel lasts to the top.
  induction fuel generalizing path ds with
  | zero => exact absurd hfuel (Nat.not_lt_zero _)
  | succ fuel ih =>
    rw [addDirectories]
    by_cases hempty : path = ""
    · have hnone : ¬ Path.Above key "" := Path.not_above_of_no_slash (by simp)
      rw [if_pos (String.isEmpty_iff.2 hempty), hempty]
      simp only [hnone, or_false]
      exact ⟨.inl, fun h => h.elim id fun h => absurd h.2 h.1⟩
    · have hshort := Path.parent_length_lt hempty
      rw [if_neg (mt String.isEmpty_iff.1 hempty), ih (by omega), @Path.above_iff key path]
      have hadd : key ∈ (if ds.contains path then ds else ds ++ [path]) ↔ key ∈ ds ∨ key = path := by
        split
        · rename_i hthere
          exact ⟨.inl, fun h => h.elim id fun h => h ▸ List.contains_iff_mem.1 hthere⟩
        · simp
      rw [hadd]
      constructor
      · rintro ((hold | rfl) | ⟨hne, habove⟩)
        · exact .inl hold
        · exact .inr ⟨hempty, .inl rfl⟩
        · exact .inr ⟨hne, .inr ⟨hne, habove⟩⟩
      · rintro (hold | ⟨hne, rfl | ⟨-, habove⟩⟩)
        · exact .inl (.inl hold)
        · exact .inl (.inr rfl)
        · exact .inr ⟨hne, habove⟩

theorem mem_withDirectory : key ∈ (m.withDirectory path).directories ↔
    m.IsDirectory key ∨ key ≠ "" ∧ (key = path ∨ Path.Above key path) :=
  mem_addDirectories (Nat.lt_succ_self _)

theorem mem_withParents : key ∈ (m.withDirectory (Path.parent path)).directories ↔
    m.IsDirectory key ∨ Path.Above key path := by
  rw [mem_withDirectory, @Path.above_iff key path]

theorem files_withDirectory (m : MemoryFiles) (path : String) : (m.withDirectory path).files = m.files := rfl

theorem hasDirectory_iff : m.hasDirectory key = true ↔ m.IsDirectory key := List.contains_iff_mem

theorem run_read (m : MemoryFiles) (path : String) : (read path).run m =
    match m.files.get? (Path.normalize path) with
    | some content => .ok content m
    | none => .error (.refused ("file not found: " ++ path)) m := by
  simp only [read, EStateM.run_bind, EStateM.run_get]
  cases m.files.get? (Path.normalize path) <;> rfl

theorem run_write (m : MemoryFiles) (path content : String) : (write path content).run m =
    if m.hasDirectory (Path.normalize path) then .error (.refused ("is a directory: " ++ path)) m
    else .ok () { m.withDirectory (Path.parent (Path.normalize path)) with
      files := m.files.insert (Path.normalize path) content } := by
  simp only [write, EStateM.run_bind, EStateM.run_get]
  split <;> simp [files_withDirectory]

theorem run_mkdir (m : MemoryFiles) (path : String) : (mkdir path).run m =
    if m.files.contains (Path.normalize path) then .error (.refused ("file exists: " ++ path)) m
    else .ok () (m.withDirectory (Path.normalize path)) := by
  simp only [mkdir, EStateM.run_bind, EStateM.run_get]
  split <;> simp

theorem run_delete (m : MemoryFiles) (path : String) : (delete path).run m =
    if m.files.contains (Path.normalize path) then .ok () { m with files := m.files.erase (Path.normalize path) }
    else if m.hasDirectory (Path.normalize path) then
      if m.files.keys.any fun f => (Path.normalize path ++ "/").toList.isPrefixOf f.toList then
        .error (.refused ("directory not empty: " ++ path)) m
      else .ok () { m with directories := m.directories.filter (· ≠ Path.normalize path) }
    else .error (.refused ("file not found: " ++ path)) m := by
  simp only [delete, EStateM.run_bind, EStateM.run_get]
  split
  · rfl
  · simp only [EStateM.run_bind, EStateM.run_get]
    split
    · simp only [EStateM.run_bind, EStateM.run_get]
      split <;> simp
    · rfl

/-- The answer to a call and the files afterwards. What a call that succeeds has found out is kept here too. -/
inductive Outcome (m : MemoryFiles) : FileCall → Except Fault FileAnswer → MemoryFiles → Prop where
  | fails (c : FileCall) (reason : String) : Outcome m c (.error (.refused reason)) m
  | looks (c : FileCall) {a : FileAnswer} (ha : a ≠ .done) : Outcome m c (.ok a) m
  | writes {path content : String} (hdirectory : ¬ m.IsDirectory (Path.normalize path)) :
      Outcome m (.write path content) (.ok .done) { m.withDirectory (Path.parent (Path.normalize path)) with
        files := m.files.insert (Path.normalize path) content }
  | makes {path : String} (hfile : ¬ m.IsFile (Path.normalize path)) :
      Outcome m (.mkdir path) (.ok .done) (m.withDirectory (Path.normalize path))
  | erases {path : String} (hfile : m.IsFile (Path.normalize path)) :
      Outcome m (.delete path) (.ok .done) { m with files := m.files.erase (Path.normalize path) }
  | removes {path : String} (hfile : ¬ m.IsFile (Path.normalize path)) (hdirectory : m.IsDirectory (Path.normalize path))
      (hempty : ∀ key, m.IsFile key → ¬ Path.Above (Path.normalize path) key) :
      Outcome m (.delete path) (.ok .done) { m with directories := m.directories.filter (· ≠ Path.normalize path) }

theorem outcome (m : MemoryFiles) (c : FileCall) : m.Outcome c (m.answer c) (m.after c) := by
  unfold answer after
  cases c with
  | read path =>
    simp only [FileCall.perform, EStateM.run_bind, run_read]
    cases m.files.get? (Path.normalize path) with
    | none => exact .fails _ _
    | some content => exact .looks _ nofun
  | write path content =>
    simp only [FileCall.perform, EStateM.run_bind, run_write]
    by_cases h : m.hasDirectory (Path.normalize path) = true
    · rw [if_pos h]
      exact .fails _ _
    · rw [if_neg h]
      exact .writes (mt hasDirectory_iff.2 h)
  | mkdir path =>
    simp only [FileCall.perform, EStateM.run_bind, run_mkdir]
    by_cases h : m.files.contains (Path.normalize path) = true
    · rw [if_pos h]
      exact .fails _ _
    · rw [if_neg h]
      exact .makes (mt (Dict.contains_iff _ _).2 h)
  | delete path =>
    simp only [FileCall.perform, EStateM.run_bind, run_delete]
    by_cases hfile : m.files.contains (Path.normalize path) = true
    · rw [if_pos hfile]
      exact .erases ((Dict.contains_iff _ _).1 hfile)
    · rw [if_neg hfile]
      by_cases hdirectory : m.hasDirectory (Path.normalize path) = true
      · rw [if_pos hdirectory]
        by_cases hempty : (m.files.keys.any fun f => (Path.normalize path ++ "/").toList.isPrefixOf f.toList) = true
        · rw [if_pos hempty]
          exact .fails _ _
        · rw [if_neg hempty]
          refine .removes (mt (Dict.contains_iff _ _).2 hfile) (hasDirectory_iff.1 hdirectory) fun key hkey habove => ?_
          exact hempty (List.any_eq_true.2 ⟨key, hkey, List.isPrefixOf_iff_prefix.2 habove.2⟩)
      · rw [if_neg hdirectory]
        exact .fails _ _
  | exists_ path => exact .looks _ nofun

/-- Where the answer is known, only the outcomes with this answer are left. -/
theorem outcome_of_answer {a : Except Fault FileAnswer} (h : m.answer c = a) : ∃ m', m.after c = m' ∧ m.Outcome c a m' :=
  ⟨_, rfl, h ▸ m.outcome c⟩

theorem answer_read (m : MemoryFiles) (path : String) : m.answer (.read path) =
    match m.files.get? (Path.normalize path) with
    | some content => .ok (.content content)
    | none => .error (.refused ("file not found: " ++ path)) := by
  simp only [answer, FileCall.perform, EStateM.run_bind, run_read]
  cases m.files.get? (Path.normalize path) <;> rfl

/-- A directory is not empty if a file is below it; directories do not count. -/
theorem delete_refused_iff (hdirectory : m.IsDirectory (Path.normalize path)) (hfile : ¬ m.IsFile (Path.normalize path))
    (hnamed : ¬ m.IsDirectory "") :
    m.answer (.delete path) = .error (.refused ("directory not empty: " ++ path)) ↔
      ∃ below, m.IsFile below ∧ Path.Above (Path.normalize path) below := by
  have hne : Path.normalize path ≠ "" := fun heq => hnamed (heq ▸ hdirectory)
  have hbelow : (m.files.keys.any fun f => (Path.normalize path ++ "/").toList.isPrefixOf f.toList) = true ↔
      ∃ below, m.IsFile below ∧ Path.Above (Path.normalize path) below := by
    simp only [List.any_eq_true, List.isPrefixOf_iff_prefix, Path.Above]
    exact exists_congr fun below => and_congr_right fun _ => (and_iff_right hne).symm
  rw [← hbelow]
  simp only [answer, FileCall.perform, EStateM.run_bind, run_delete]
  rw [if_neg (mt (Dict.contains_iff _ _).1 hfile), if_pos (hasDirectory_iff.2 hdirectory)]
  cases m.files.keys.any fun f => (Path.normalize path ++ "/").toList.isPrefixOf f.toList with
  | false => exact iff_of_false (fun h => by cases h) Bool.false_ne_true
  | true => exact iff_of_true rfl rfl

/-- A call that fails is refused, and it has changed nothing. -/
theorem after_of_error {f : Fault} (h : m.answer c = .error f) : (∃ reason, f = .refused reason) ∧ m.after c = m := by
  obtain ⟨m', hafter, houtcome⟩ := outcome_of_answer h
  cases houtcome with
  | fails _ reason => exact ⟨⟨reason, rfl⟩, hafter⟩

/-- A place is a directory after a call if the call makes it one, or if it was one and the call does not remove it. -/
theorem isDirectory_after : (m.after c).IsDirectory key ↔
    m.Makes c key ∨ m.IsDirectory key ∧ ¬ (m.Deletes c key ∧ ¬ m.IsFile key) := by
  have houtcome := m.outcome c
  unfold Makes Deletes
  generalize m.answer c = a at houtcome ⊢
  generalize m.after c = m' at houtcome ⊢
  cases houtcome with
  | fails => simp
  | looks _ ha => simp [ha]
  | writes =>
    rw [IsDirectory, mem_withParents, or_comm]
    simp [FileCall.Enters]
  | makes =>
    rw [IsDirectory, mem_withDirectory, or_comm]
    simp [FileCall.Enters]
  | @erases path hfile =>
    have hkept : Path.normalize path = key → m.IsFile key := fun heq => heq ▸ hfile
    simpa [IsDirectory, FileCall.Enters] using fun _ => hkept
  | @removes path hfile =>
    have hgone : key ≠ Path.normalize path ↔ ¬ (Path.normalize path = key ∧ ¬ m.IsFile key) :=
      ⟨fun hne h => hne h.1.symm, fun h heq => h ⟨heq.symm, heq ▸ hfile⟩⟩
    simp only [IsDirectory, List.mem_filter, decide_eq_true_eq, hgone]
    simp [FileCall.Enters]

theorem isFile_iff : m.IsFile key ↔ ∃ content, m.files.get? key = some content := Dict.mem_keys_iff

/-- A place has a content after a call if the call writes it, or if it had it and the call neither writes nor deletes
there. -/
theorem content_after (hdistinct : m.files.keys.Nodup) : (m.after c).files.get? key = some content ↔
    m.Writes c key content ∨
      m.files.get? key = some content ∧ ¬ ((∃ other, m.Writes c key other) ∨ m.Deletes c key) := by
  have houtcome := m.outcome c
  unfold Writes Deletes
  generalize m.answer c = a at houtcome ⊢
  generalize m.after c = m' at houtcome ⊢
  cases houtcome with
  | fails => simp
  | looks _ ha => simp [ha]
  | @writes path text =>
    by_cases hkey : key = Path.normalize path
    · rw [hkey, Dict.get?_insert_self]
      constructor
      · rintro ⟨⟩
        simp
      · simp
    · simp [Dict.get?_insert_of_ne _ _ _ _ hkey, Ne.symm hkey]
  | makes => simp [files_withDirectory]
  | @erases path =>
    by_cases hkey : key = Path.normalize path
    · have hgone : (m.files.erase (Path.normalize path)).get? (Path.normalize path) = none := by
        rw [Dict.get?_eq_none_iff, Dict.keys_erase]
        exact hdistinct.not_mem_erase
      simp [hkey, hgone]
    · simp [Dict.get?_erase_of_ne _ hkey, Ne.symm hkey]
  | @removes path hfile =>
    have hother : Path.normalize path = key → m.files.get? key ≠ some content := fun heq hthere =>
      hfile (heq ▸ isFile_iff.2 ⟨content, hthere⟩)
    simpa using fun hthere heq => hother heq hthere

theorem isFile_after (hdistinct : m.files.keys.Nodup) : (m.after c).IsFile key ↔
    (∃ content, m.Writes c key content) ∨ m.IsFile key ∧ ¬ m.Deletes c key := by
  rw [isFile_iff, isFile_iff]
  simp only [content_after hdistinct]
  constructor
  · rintro ⟨content, hwrites | ⟨hthere, hnot⟩⟩
    · exact .inl ⟨content, hwrites⟩
    · exact .inr ⟨⟨content, hthere⟩, fun hdeletes => hnot (.inr hdeletes)⟩
  · rintro (⟨content, hwrites⟩ | ⟨⟨content, hthere⟩, hnot⟩)
    · exact ⟨content, .inl hwrites⟩
    · by_cases hwrites : ∃ other, m.Writes c key other
      · exact hwrites.imp fun _ => .inl
      · exact ⟨content, .inr ⟨hthere, fun h => h.elim hwrites hnot⟩⟩

theorem distinct_after (hdistinct : m.files.keys.Nodup) : (m.after c).files.keys.Nodup := by
  have houtcome := m.outcome c
  generalize m.answer c = a at houtcome
  generalize m.after c = m' at houtcome ⊢
  cases houtcome with
  | fails | looks | removes => exact hdistinct
  | makes =>
    rw [files_withDirectory]
    exact hdistinct
  | writes =>
    rw [Dict.keys_insert]
    split
    · exact hdistinct
    · rename_i hnew
      refine List.nodup_append.2 ⟨hdistinct, by simp, fun k hk k' hk' heq => hnew ?_⟩
      rwa [← List.mem_singleton.1 hk', ← heq]
  | erases =>
    rw [Dict.keys_erase]
    exact hdistinct.erase _

theorem Writes.not_isDirectory (h : m.Writes c key content) : ¬ m.IsDirectory key := by
  obtain ⟨path, rfl, rfl, hanswer⟩ := h
  obtain ⟨m', -, houtcome⟩ := outcome_of_answer hanswer
  cases houtcome with
  | looks _ ha => exact absurd rfl ha
  | writes hdirectory => exact hdirectory

theorem Writes.not_makes (h : m.Writes c key content) : ¬ m.Makes c key := by
  obtain ⟨path, rfl, rfl, -⟩ := h
  exact fun hmakes => Path.not_above_self _ hmakes.1

theorem Writes.makes {above : String} (h : m.Writes c key content) (habove : Path.Above above key) :
    m.Makes c above := by
  obtain ⟨path, rfl, rfl, hanswer⟩ := h
  exact ⟨habove, hanswer⟩

theorem Makes.ne_empty (h : m.Makes c key) : key ≠ "" := by
  cases c with
  | write path text => exact h.1.1
  | mkdir path => exact h.1.1
  | read | delete | exists_ => exact h.1.elim

theorem Makes.not_deletes {other : String} (h : m.Makes c key) : ¬ m.Deletes c other := by
  rintro ⟨path, rfl, -⟩
  exact h.1

theorem Makes.above {above : String} (h : m.Makes c key) (habove : Path.Above above key) : m.Makes c above := by
  refine ⟨?_, h.2⟩
  cases c with
  | write path text => exact habove.trans h.1
  | mkdir path =>
    obtain ⟨-, rfl | hbelow⟩ := h.1
    · exact ⟨habove.1, .inr habove⟩
    · exact ⟨habove.1, .inr (habove.trans hbelow)⟩
  | read | delete | exists_ => exact h.1.elim

theorem Deletes.unique {other : String} (h : m.Deletes c key) (hother : m.Deletes c other) : key = other := by
  obtain ⟨path, rfl, rfl, -⟩ := h
  obtain ⟨path', heq, rfl, -⟩ := hother
  rw [FileCall.delete.inj heq]

/-- A directory is not removed while a file is below it. -/
theorem Deletes.empty (h : m.Deletes c key) (hfile : ¬ m.IsFile key) {below : String} (hbelow : m.IsFile below) :
    ¬ Path.Above key below := by
  obtain ⟨path, rfl, rfl, hanswer⟩ := h
  obtain ⟨m', -, houtcome⟩ := outcome_of_answer hanswer
  cases houtcome with
  | looks _ ha => exact absurd rfl ha
  | erases hthere => exact absurd hthere hfile
  | removes _ _ hempty => exact hempty below hbelow

end MemoryFiles

end DeskScript
