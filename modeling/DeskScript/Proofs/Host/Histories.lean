import DeskScript.Proofs.Host.Calls
import Mathlib.Data.List.Induction

set_option autoImplicit false

/-!
# Histories of the file system

A property of the files that some calls begin and some calls end holds now exactly if a call has begun it and none has
ended it since. So what is where after any calls is told by their history.
-/

namespace DeskScript

namespace MemoryFiles

variable {m : MemoryFiles} {key path : String} {files : List (String × String)}

def run (m : MemoryFiles) (cs : List FileCall) : MemoryFiles := cs.foldl after m

theorem run_append (m : MemoryFiles) (cs later : List FileCall) : m.run (cs ++ later) = (m.run cs).run later :=
  List.foldl_append

theorem run_concat (m : MemoryFiles) (cs : List FileCall) (c : FileCall) :
    m.run (cs ++ [c]) = (m.run cs).after c := run_append m cs [c]

/-- What holds at first and is kept by every call holds after any calls. -/
theorem run_induction {P : MemoryFiles → Prop} (hstart : P m) (hstep : ∀ m c, P m → P (after m c))
    (cs : List FileCall) : P (m.run cs) := by
  induction cs generalizing m with
  | nil => exact hstart
  | cons c cs ih => exact ih (hstep m c hstart)

/-- A call of the history begins something, and no later one ends it. -/
def Since (begins ends : MemoryFiles → FileCall → Prop) (m : MemoryFiles) (history : List FileCall) : Prop :=
  ∃ earlier c later, history = earlier ++ c :: later ∧ begins (m.run earlier) c ∧
    ∀ between c' rest, later = between ++ c' :: rest → ¬ ends (m.run (earlier ++ c :: between)) c'

section Since

variable {begins ends : MemoryFiles → FileCall → Prop}

theorem not_since_nil : ¬ Since begins ends m [] := by
  rintro ⟨earlier, c, later, heq, -⟩
  simp at heq

/-- A split of a history that has grown is at its last call or before it. -/
theorem concat_split {history earlier later : List FileCall} {c c' : FileCall}
    (h : history ++ [c] = earlier ++ c' :: later) : (earlier = history ∧ c' = c ∧ later = []) ∨
      ∃ later', later = later' ++ [c] ∧ history = earlier ++ c' :: later' := by
  rcases List.eq_nil_or_concat later with rfl | ⟨later, last, rfl⟩
  · obtain ⟨hhistory, hlast⟩ := List.append_inj' h rfl
    exact .inl ⟨hhistory.symm, (List.singleton_inj.1 hlast).symm, rfl⟩
  · have h' : history ++ [c] = (earlier ++ c' :: later) ++ [last] := by simpa using h
    obtain ⟨hhistory, hlast⟩ := List.append_inj' h' rfl
    rw [← List.singleton_inj.1 hlast]
    exact .inr ⟨later, by simp, hhistory⟩

theorem since_concat {history : List FileCall} {c : FileCall} : Since begins ends m (history ++ [c]) ↔
    begins (m.run history) c ∨ Since begins ends m history ∧ ¬ ends (m.run history) c := by
  constructor
  · rintro ⟨earlier, c', later, heq, hbegins, hkept⟩
    rcases concat_split heq with ⟨rfl, rfl, rfl⟩ | ⟨later', rfl, rfl⟩
    · exact .inl hbegins
    · refine .inr ⟨⟨earlier, c', later', rfl, hbegins, fun between c'' rest hlater => ?_⟩, hkept later' c [] rfl⟩
      exact hkept between c'' (rest ++ [c]) (by simp [hlater])
  · rintro (hbegins | ⟨⟨earlier, c', later, rfl, hbegins, hkept⟩, hlast⟩)
    · exact ⟨history, c, [], rfl, hbegins, fun between c' rest heq => by simp at heq⟩
    · refine ⟨earlier, c', later ++ [c], by simp, hbegins, fun between c'' rest heq => ?_⟩
      rcases concat_split heq with ⟨rfl, rfl, -⟩ | ⟨rest', -, hlater⟩
      · exact hlast
      · exact hkept between c'' rest' hlater

/-- What does not hold at first holds now exactly if it has begun and not ended since. -/
theorem holds_iff_since {P : MemoryFiles → Prop} (hstart : ¬ P m) (hstep : ∀ history c,
    P ((m.run history).after c) ↔ begins (m.run history) c ∨ P (m.run history) ∧ ¬ ends (m.run history) c)
    (history : List FileCall) : P (m.run history) ↔ Since begins ends m history := by
  induction history using List.reverseRecOn with
  | nil => exact iff_of_false hstart not_since_nil
  | append_singleton history c ih => rw [run_concat, hstep, ih, since_concat]

end Since

def given (files : List (String × String)) : List FileCall := files.map fun (path, content) => .write path content

theorem run_given {start : MemoryFiles}
    (h : (files.forM fun (path, content) => write path content).run start = .ok () m) : m = start.run (given files) := by
  induction files generalizing start with
  | nil => cases h; rfl
  | cons e files ih =>
    obtain ⟨path, content⟩ := e
    rw [List.forM, EStateM.run_bind] at h
    have hafter : start.run (given ((path, content) :: files)) =
      (start.after (.write path content)).run (given files) := rfl
    rw [hafter, after, FileCall.perform, EStateM.run_bind]
    cases hwrite : (write path content).run start with
    | ok _ next =>
      rw [hwrite] at h
      exact ih h
    | error f next =>
      rw [hwrite] at h
      cases h

theorem run_ofList (hnew : ofList files = .ok m) (calls : List FileCall) :
    m.run calls = ({} : MemoryFiles).run (given files ++ calls) := by
  unfold ofList FileProcedure.outcome at hnew
  cases hrun : (files.forM fun (path, content) => write path content).run ({} : MemoryFiles) with
  | ok _ next =>
    rw [hrun] at hnew
    cases hnew
    rw [run_append, ← run_given hrun]
  | error f next =>
    rw [hrun] at hnew
    cases hnew

/-- What is true of files from the first on: paths are distinct, and what is above a file is a directory. -/
structure WellKept (m : MemoryFiles) : Prop where
  distinct : m.files.keys.Nodup
  named : ¬ m.IsDirectory ""
  sheltered : ∀ {key below : String}, m.IsFile below → Path.Above key below → m.IsDirectory key

theorem wellKept_new : WellKept {} where
  distinct := .nil
  named := by decide
  sheltered h := absurd h List.not_mem_nil

theorem WellKept.after (h : m.WellKept) (c : FileCall) : (m.after c).WellKept where
  distinct := distinct_after h.distinct
  named := by
    rw [isDirectory_after]
    rintro (hmakes | ⟨hold, -⟩)
    · exact hmakes.ne_empty rfl
    · exact h.named hold
  sheltered := by
    intro key below hbelow habove
    rw [isDirectory_after]
    rcases (isFile_after h.distinct).1 hbelow with ⟨content, hwrites⟩ | ⟨hold, -⟩
    · exact .inl (hwrites.makes habove)
    · exact .inr ⟨h.sheltered hold habove, fun ⟨hdeletes, hfile⟩ => hdeletes.empty hfile hold habove⟩

theorem wellKept_run (history : List FileCall) : (({} : MemoryFiles).run history).WellKept :=
  run_induction wellKept_new (fun _ c h => h.after c) history

theorem WellKept.isBoth_after (h : m.WellKept) (c : FileCall) :
    (m.after c).IsFile key ∧ (m.after c).IsDirectory key ↔
      m.IsFile key ∧ m.Makes c key ∨ (m.IsFile key ∧ m.IsDirectory key) ∧ ¬ m.Deletes c key := by
  rw [isFile_after h.distinct, isDirectory_after]
  constructor
  · rintro ⟨⟨content, hwrites⟩ | ⟨hfile, hkept⟩, hmakes | ⟨hdirectory, -⟩⟩
    · exact absurd hmakes hwrites.not_makes
    · exact absurd hdirectory hwrites.not_isDirectory
    · exact .inl ⟨hfile, hmakes⟩
    · exact .inr ⟨⟨hfile, hdirectory⟩, hkept⟩
  · rintro (⟨hfile, hmakes⟩ | ⟨⟨hfile, hdirectory⟩, hkept⟩)
    · exact ⟨.inr ⟨hfile, hmakes.not_deletes⟩, .inl hmakes⟩
    · exact ⟨.inr ⟨hfile, hkept⟩, .inr ⟨hdirectory, fun hremoves => hkept hremoves.1⟩⟩

theorem WellKept.isCutOff_after (h : m.WellKept) (c : FileCall) (hparent : Path.parent key ≠ "") :
    (m.after c).IsDirectory key ∧ ¬ (m.after c).IsDirectory (Path.parent key) ↔
      (m.IsDirectory key ∧ m.Deletes c (Path.parent key) ∧ ¬ m.IsFile (Path.parent key)) ∨
        (m.IsDirectory key ∧ ¬ m.IsDirectory (Path.parent key)) ∧
          ¬ (m.Makes c (Path.parent key) ∨ m.Deletes c key) := by
  have habove := Path.parent_above hparent
  rw [isDirectory_after, isDirectory_after]
  constructor
  · rintro ⟨hmakes | ⟨hdirectory, hkept⟩, hnone⟩
    · exact (hnone (.inl (hmakes.above habove))).elim
    · by_cases hremoves : m.Deletes c (Path.parent key) ∧ ¬ m.IsFile (Path.parent key)
      · exact .inl ⟨hdirectory, hremoves⟩
      · have hmissing : ¬ m.IsDirectory (Path.parent key) := fun hthere => hnone (.inr ⟨hthere, hremoves⟩)
        refine .inr ⟨⟨hdirectory, hmissing⟩, fun hends => hends.elim (fun hmakes => hnone (.inl hmakes)) fun hdeletes => ?_⟩
        exact hkept ⟨hdeletes, fun hfile => hmissing (h.sheltered hfile habove)⟩
  · rintro (⟨hdirectory, hremoves⟩ | ⟨⟨hdirectory, hmissing⟩, hends⟩)
    · have hother : ¬ m.Deletes c key := by
        intro hdeletes
        rw [← hdeletes.unique hremoves.1] at habove
        exact Path.not_above_self key habove
      refine ⟨.inr ⟨hdirectory, fun hgone => hother hgone.1⟩, ?_⟩
      rintro (hmakes | ⟨-, hkept⟩)
      · exact hmakes.not_deletes hremoves.1
      · exact hkept hremoves
    · refine ⟨.inr ⟨hdirectory, fun hgone => hends (.inr hgone.1)⟩, ?_⟩
      rintro (hmakes | ⟨hthere, -⟩)
      · exact hends (.inl hmakes)
      · exact hmissing hthere

/-- **Files and directories.** A place is at once a file and a directory exactly if something was put below it while it
was a file, and it was not deleted since. -/
theorem isFile_and_isDirectory_iff (hnew : ofList files = .ok m) (calls : List FileCall) (key : String) :
    (m.run calls).IsFile key ∧ (m.run calls).IsDirectory key ↔
      Since (fun m c => m.IsFile key ∧ m.Makes c key) (fun m c => m.Deletes c key) {} (given files ++ calls) := by
  rw [run_ofList hnew]
  refine holds_iff_since (P := fun m => m.IsFile key ∧ m.IsDirectory key) ?_ ?_ _
  · exact fun h => absurd h.1 List.not_mem_nil
  · exact fun history c => (wellKept_run history).isBoth_after c

def oneFile : MemoryFiles := { files := [("C:/a", "x")] }

theorem ofList_oneFile : ofList [("c:\\a", "x")] = .ok oneFile := by decide +kernel

/-- A file below a file: only the place itself is looked at before it is written, and what is above becomes a
directory. -/
theorem file_below_file : ofList [("c:\\a", "x")] = .ok oneFile ∧
    (oneFile.run [.write "C:/a/b" "y"]).IsFile "C:/a" ∧ (oneFile.run [.write "C:/a/b" "y"]).IsDirectory "C:/a" :=
  ⟨ofList_oneFile, by decide +kernel, by decide +kernel⟩

theorem isFile_and_isDirectory_iff_below : ofList [("c:\\a", "x")] = .ok oneFile ∧
    Since (fun m c => m.IsFile "C:/a" ∧ m.Makes c "C:/a") (fun m c => m.Deletes c "C:/a") {}
      (given [("c:\\a", "x")] ++ [.write "C:/a/b" "y", .delete "C:/a/b"]) := by
  refine ⟨ofList_oneFile, (isFile_and_isDirectory_iff ofList_oneFile _ "C:/a").1 ⟨?_, ?_⟩⟩
  · decide +kernel
  · decide +kernel

/-- **Directories.** What is above a file is a directory, and no directory above a file is removed. A directory is without
its parent exactly if the parent was removed while the directory was there, and neither was the parent made again nor the
directory deleted since. -/
theorem directories_above (hnew : ofList files = .ok m) (calls : List FileCall) :
    (∀ {key below}, (m.run calls).IsFile below → Path.Above key below → (m.run calls).IsDirectory key) ∧
    (∀ {path}, (m.run calls).IsDirectory (Path.normalize path) → ¬ (m.run calls).IsFile (Path.normalize path) →
      ((m.run calls).answer (.delete path) = .error (.refused ("directory not empty: " ++ path)) ↔
        ∃ below, (m.run calls).IsFile below ∧ Path.Above (Path.normalize path) below)) ∧
    ∀ {key}, Path.parent key ≠ "" →
      ((m.run calls).IsDirectory key ∧ ¬ (m.run calls).IsDirectory (Path.parent key) ↔
        Since (fun m c => m.IsDirectory key ∧ m.Deletes c (Path.parent key) ∧ ¬ m.IsFile (Path.parent key))
          (fun m c => m.Makes c (Path.parent key) ∨ m.Deletes c key) {} (given files ++ calls)) := by
  rw [run_ofList hnew]
  have hkept := wellKept_run (given files ++ calls)
  refine ⟨hkept.sheltered, fun hdirectory hfile => delete_refused_iff hdirectory hfile hkept.named, fun hparent => ?_⟩
  refine holds_iff_since (P := fun m => m.IsDirectory _ ∧ ¬ m.IsDirectory (Path.parent _)) ?_ ?_ _
  · rintro ⟨hfirst, -⟩
    rw [List.mem_singleton.1 hfirst] at hparent
    exact absurd rfl hparent
  · exact fun history c => (wellKept_run history).isCutOff_after c hparent

/-- A directory in a directory is not looked for when the outer one is deleted. -/
theorem directory_without_parent : Path.parent "C:/a/b" = "C:/a" ∧
    (({} : MemoryFiles).run [.mkdir "C:/a/b", .delete "C:/a"]).IsDirectory "C:/a/b" ∧
    ¬ (({} : MemoryFiles).run [.mkdir "C:/a/b", .delete "C:/a"]).IsDirectory "C:/a" := by
  refine ⟨?_, ?_, ?_⟩ <;> decide +kernel

theorem directories_above_deleted : ofList [("c:\\a", "x")] = .ok oneFile ∧
    Since (fun m c => m.IsDirectory "C:/b/c" ∧ m.Deletes c "C:/b" ∧ ¬ m.IsFile "C:/b")
      (fun m c => m.Makes c "C:/b" ∨ m.Deletes c "C:/b/c") {}
      (given [("c:\\a", "x")] ++ [.mkdir "C:/b/c", .delete "C:/b", .write "C:/d" ""]) := by
  have hparent : Path.parent "C:/b/c" = "C:/b" := by decide +kernel
  refine ⟨ofList_oneFile, ?_⟩
  rw [← hparent]
  refine ((directories_above ofList_oneFile _).2.2 (by decide +kernel)).1 ⟨?_, ?_⟩
  · decide +kernel
  · decide +kernel

/-- The last call that wrote at a place or deleted there wrote this content. -/
def LastWrites (key content : String) (history : List FileCall) : Prop :=
  Since (fun m c => m.Writes c key content) (fun m c => (∃ other, m.Writes c key other) ∨ m.Deletes c key) {} history

theorem content_iff_lastWrites (history : List FileCall) (key content : String) :
    (({} : MemoryFiles).run history).files.get? key = some content ↔ LastWrites key content history := by
  refine holds_iff_since (P := fun m => m.files.get? key = some content) ?_ ?_ history
  · simp [Dict.get?]
  · exact fun history _ => content_after (wellKept_run history).distinct

/-- **Contents.** Reading a path gives what was last written to its place, in whatever spelling, if it was not deleted
since; else the file is not found. A call that fails is refused, and it has changed nothing. -/
theorem read_last_written (hnew : ofList files = .ok m) (calls : List FileCall) :
    (∀ path content, (m.run calls).answer (.read path) = .ok (.content content) ↔
      LastWrites (Path.normalize path) content (given files ++ calls)) ∧
    (∀ path, (∀ content, ¬ LastWrites (Path.normalize path) content (given files ++ calls)) →
      (m.run calls).answer (.read path) = .error (.refused ("file not found: " ++ path))) ∧
    ∀ c f, (m.run calls).answer c = .error f →
      (∃ reason, f = .refused reason) ∧ (m.run calls).after c = m.run calls := by
  rw [run_ofList hnew]
  refine ⟨fun path content => ?_, fun path hnone => ?_, fun c f => after_of_error⟩
  · rw [← content_iff_lastWrites, answer_read]
    split <;> simp_all
  · rw [answer_read]
    split
    · rename_i content hcontent
      exact absurd ((content_iff_lastWrites _ _ _).1 hcontent) (hnone content)
    · rfl

theorem read_last_written_respelled : ofList [("c:\\a", "x")] = .ok oneFile ∧
    LastWrites "C:/a" "y" (given [("c:\\a", "x")] ++ [.write " C:/./a" "y", .write "c:" "z", .delete "C:/b"]) := by
  have hspelling : Path.normalize "C://a" = "C:/a" := by decide +kernel
  refine ⟨ofList_oneFile, ?_⟩
  rw [← hspelling]
  refine ((read_last_written ofList_oneFile _).1 "C://a" "y").1 ?_
  decide +kernel

end MemoryFiles

end DeskScript
