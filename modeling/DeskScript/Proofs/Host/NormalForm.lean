import DeskScript.Proofs.Host.Histories
import DeskScript.Proofs.Text.Case
import DeskScript.Proofs.Text.Splitting
import DeskScript.Proofs.Text.Trimming

set_option autoImplicit false

/-!
# Normal forms of paths

The parts of a normal form are joined and split again without change: no part is empty or a point, none has a slash or a
backslash in it, and a drive in upper case stays as it is. But blanks are taken off the path before the slashes at its
ends are, so a normal form can begin or end with a blank, and then it is not its own normal form. All files and
directories stand under normal forms and what is above them. Main statement: `MemoryFiles.normalize_key_iff`.
-/

namespace DeskScript

namespace Path

open Number Text

variable {path key below p : String} {ps : List String}

def Unpadded (path : String) : Prop := trim path.toList = path.toList

instance (path : String) : Decidable (Unpadded path) := inferInstanceAs (Decidable (_ = _))

structure IsPart (p : String) : Prop where
  named : p ≠ "" ∧ p ≠ "."
  noSlash : '/' ∉ p.toList
  noBackslash : '\\' ∉ p.toList

/-- A part is no drive, or a character and a colon of which the character is put in upper case. -/
theorem driveUpper_cases (p : String) : driveUpper p = p ∨
    ∃ c, p.toList = [c, ':'] ∧ (driveUpper p).toList = upperChar c ++ [':'] := by
  unfold driveUpper
  split
  · rename_i c hp
    refine .inr ⟨c, hp, ?_⟩
    rw [upper, String.toList_ofList, hp]
    rfl
  · exact .inl rfl

theorem driveUpper_driveUpper (p : String) : driveUpper (driveUpper p) = driveUpper p := by
  rcases driveUpper_cases p with hsame | ⟨c, hp, hdrive⟩
  · rw [hsame, hsame]
  · rcases driveUpper_cases (driveUpper p) with hsame | ⟨d, hagain, hupper⟩
    · exact hsame
    · rw [hdrive] at hagain
      obtain ⟨hone, -⟩ := List.append_inj' (show upperChar c ++ [':'] = [d] ++ [':'] from hagain) rfl
      rw [← String.toList_inj, hupper, hdrive, upperChar_upperChar hone, hone]

theorem IsPart.driveUpper (h : IsPart p) : IsPart (driveUpper p) := by
  rcases driveUpper_cases p with hsame | ⟨c, hp, hdrive⟩
  · rwa [hsame]
  · have hcolon : ':' ∈ (Path.driveUpper p).toList := by simp [hdrive]
    have hcut {d : Char} (hd : d.toNat ∈ cuts) (hother : d ≠ ':') (hnot : d ∉ p.toList) :
        d ∉ (Path.driveUpper p).toList := by
      rw [hdrive, List.mem_append, List.mem_singleton]
      rintro (hupper | hend)
      · refine hnot ?_
        rw [mem_upperChar hupper hd, hp]
        exact List.mem_cons_self
      · exact hother hend
    refine ⟨⟨fun heq => ?_, fun heq => ?_⟩, hcut (by decide) (by decide) h.noSlash,
      hcut (by decide) (by decide) h.noBackslash⟩
    · simp [heq] at hcolon
    · simp [heq] at hcolon

def upperFirst : List String → List String
  | [] => []
  | first :: rest => driveUpper first :: rest

def slashed (path : String) : List Char := path.toList.map fun c => if c = '\\' then '/' else c

def pieces (path : String) : List (List Char) := splitBy ['/'] (trim (slashed path))

theorem noSlash_of_piece {p : List Char} (hp : p ∈ pieces path) : '/' ∉ p := not_mem_of_splitBy hp

theorem parts_eq (path : String) :
    parts path = upperFirst (((pieces path).map String.ofList).filter fun p => p ≠ "" && p ≠ ".") := by
  rw [parts, ← slashed, ← pieces]
  split
  · rename_i hnone
    rw [hnone, upperFirst]
  · rename_i hsome
    rw [hsome, upperFirst]

/-- Parts as they stand in a normal form. -/
structure Tidy (ps : List String) : Prop where
  part : ∀ p ∈ ps, IsPart p
  drive : upperFirst ps = ps

theorem Tidy.take (h : Tidy ps) (n : Nat) : Tidy (ps.take n) where
  part p hp := h.part p (List.mem_of_mem_take hp)
  drive := by
    cases ps with
    | nil => simp [upperFirst]
    | cons p ps =>
      cases n with
      | zero => rfl
      | succ n =>
        rw [List.take_succ_cons, upperFirst, (List.cons.inj h.drive).1]

theorem Tidy.free (h : Tidy ps) : ∀ p ∈ ps.map String.toList, '/' ∉ p := fun p hp => by
  obtain ⟨q, hq, rfl⟩ := List.mem_map.1 hp
  exact (h.part q hq).noSlash

theorem mem_trim {c : Char} {cs : List Char} (h : c ∈ trim cs) : c ∈ cs := by
  have hstart : c ∈ trimStart cs := (trimEnd_begins (trimStart cs)).subset h
  exact (List.dropWhile_suffix isBlank).subset hstart

theorem tidy_parts (path : String) : Tidy (parts path) := by
  have hpieces {p : List Char} (hp : p ∈ pieces path) : '/' ∉ p ∧ '\\' ∉ p := by
    refine ⟨noSlash_of_piece hp, fun hback => ?_⟩
    have htext : '\\' ∈ ['/'].intercalate (pieces path) := mem_intercalate_of_mem hp hback
    rw [pieces, intercalate_splitBy (List.cons_ne_nil _ _)] at htext
    obtain ⟨c, -, hc⟩ := List.mem_map.1 (mem_trim htext)
    by_cases hback : c = '\\'
    · rw [if_pos hback] at hc
      exact absurd hc (by decide)
    · rw [if_neg hback] at hc
      exact hback hc
  have hkept : ∀ p ∈ ((pieces path).map String.ofList).filter fun p => p ≠ "" && p ≠ ".", IsPart p := by
    intro p hp
    obtain ⟨hpiece, hnamed⟩ := List.mem_filter.1 hp
    obtain ⟨cs, hcs, rfl⟩ := List.mem_map.1 hpiece
    obtain ⟨hslash, hback⟩ := hpieces hcs
    rw [Bool.and_eq_true, decide_eq_true_eq, decide_eq_true_eq] at hnamed
    exact ⟨hnamed, by rwa [String.toList_ofList], by rwa [String.toList_ofList]⟩
  rw [parts_eq]
  cases hall : ((pieces path).map String.ofList).filter fun p => p ≠ "" && p ≠ "." with
  | nil => exact ⟨nofun, rfl⟩
  | cons first rest =>
    rw [hall] at hkept
    obtain ⟨hfirst, hrest⟩ := List.forall_mem_cons.1 hkept
    exact ⟨List.forall_mem_cons.2 ⟨hfirst.driveUpper, hrest⟩, by rw [upperFirst, upperFirst, driveUpper_driveUpper]⟩

theorem toList_join (ps : List String) : ("/".intercalate ps).toList = ['/'].intercalate (ps.map String.toList) :=
  String.toList_intercalate

theorem Tidy.noBackslash (h : Tidy ps) : '\\' ∉ ("/".intercalate ps).toList := by
  rw [toList_join]
  intro hmem
  rcases mem_intercalate hmem with hslash | ⟨p, hp, hback⟩
  · exact absurd hslash (by decide)
  · obtain ⟨q, hq, rfl⟩ := List.mem_map.1 hp
    exact (h.part q hq).noBackslash hback

theorem slashed_of_not_mem (h : '\\' ∉ path.toList) : slashed path = path.toList := by
  rw [slashed, List.map_congr_left (g := id), List.map_id]
  intro c hc
  rw [if_neg]
  · rfl
  · rintro rfl
    exact h hc

/-- Joined parts are split into the same parts if no blank is at their ends. -/
theorem Tidy.parts_join (h : Tidy ps) (hends : Unpadded ("/".intercalate ps)) : parts ("/".intercalate ps) = ps := by
  by_cases hnone : ps = []
  · rw [hnone]
    decide
  · have hpieces : pieces ("/".intercalate ps) = ps.map String.toList := by
      rw [pieces, slashed_of_not_mem h.noBackslash, hends, toList_join]
      exact splitBy_intercalate h.free (by simpa using hnone)
    have hkept : ps.filter (fun p => p ≠ "" && p ≠ ".") = ps :=
      List.filter_eq_self.2 fun p hp => by simpa using (h.part p hp).named
    rw [parts_eq, hpieces, List.map_map]
    simp only [Function.comp_def, String.ofList_toList, List.map_id']
    rw [hkept, h.drive]

/-- A drive in upper case has blank ends only where it had them before. -/
theorem breaks_driveUpper : (Breaks isBlank p.toList → Breaks isBlank (driveUpper p).toList) ∧
    (Breaks isBlank p.toList.reverse → Breaks isBlank (driveUpper p).toList.reverse) := by
  rcases driveUpper_cases p with hsame | ⟨c, hp, hdrive⟩
  · rw [hsame]
    exact ⟨id, id⟩
  · rw [hp, hdrive]
    have hcolon : isBlank ':' = false := by decide
    refine ⟨fun hfront d hd => ?_, fun _ => ?_⟩
    · cases hupper : upperChar c with
      | nil =>
        rw [hupper] at hd
        cases hd
        exact hcolon
      | cons e es =>
        rw [hupper] at hd
        cases hd
        refine Bool.eq_false_iff.2 fun hblank => Bool.eq_false_iff.1 (hfront c rfl) ?_
        have hin : d ∈ upperChar c := by
          rw [hupper]
          exact List.mem_cons_self
        rwa [← mem_upperChar hin ((mem_cuts_iff d).2 (.inl hblank))]
    · rw [List.reverse_append]
      exact breaks_cons hcolon

/-- So the ends of a text stay without blanks when a drive at its front is put in upper case. -/
theorem trim_driveUpper {base : List Char} (hp : p ≠ "") (h : trim (p.toList ++ base) = p.toList ++ base) :
    trim ((driveUpper p).toList ++ base) = (driveUpper p).toList ++ base := by
  have hsome : p.toList ≠ [] := by simpa using hp
  have hupper : (driveUpper p).toList ≠ [] := by
    rcases driveUpper_cases p with hsame | ⟨c, -, hdrive⟩
    · rwa [hsame]
    · rw [hdrive]
      exact List.append_ne_nil_of_right_ne_nil _ (List.cons_ne_nil _ _)
  obtain ⟨hfront, hback⟩ := trim_eq_self_iff.1 h
  rw [Breaks, head?_append_left hsome] at hfront
  refine trim_eq_self_iff.2 ⟨?_, ?_⟩
  · rw [Breaks, head?_append_left hupper]
    exact breaks_driveUpper.1 hfront
  · rw [List.reverse_append] at hback ⊢
    by_cases hnone : base = []
    · rw [hnone] at hback ⊢
      exact breaks_driveUpper.2 hback
    · have hbase : base.reverse ≠ [] := by simpa using hnone
      rw [Breaks, head?_append_left hbase] at hback ⊢
      exact hback

theorem length_upperFirst (ps : List String) : (upperFirst ps).length = ps.length := by
  cases ps <;> rfl

/-- A path that is its own normal form has no blanks at its ends: trimming takes off no slash, so no part is lost and the
parts are those of the trimmed path. -/
theorem unpadded_of_normalize_eq (h : normalize path = path) : Unpadded path := by
  have htidy := tidy_parts path
  have hjoin : "/".intercalate (parts path) = path := h
  have hsplit : ['/'].intercalate (pieces path) = trim path.toList := by
    rw [pieces, slashed_of_not_mem (hjoin ▸ htidy.noBackslash), intercalate_splitBy (List.cons_ne_nil _ _)]
  have hcount : (parts path).length - 1 = (pieces path).length - 1 := by
    calc (parts path).length - 1 = path.toList.count '/' := by
          rw [← hjoin, toList_join, count_intercalate htidy.free, List.length_map, hjoin]
      _ = (trim path.toList).count '/' := (count_trim (by decide) _).symm
      _ = (pieces path).length - 1 := by rw [← hsplit, count_intercalate fun _ => noSlash_of_piece]
  by_cases hnone : parts path = []
  · rw [← hjoin, hnone]
    decide
  · have hkept := parts_eq path
    have hall : ((pieces path).map String.ofList).filter (fun p => p ≠ "" && p ≠ ".") =
        (pieces path).map String.ofList := by
      refine List.filter_eq_self.2 (List.length_filter_eq_length_iff.1 ?_)
      rw [← length_upperFirst, ← hkept, List.length_map]
      have hparts := List.length_pos_iff.2 hnone
      have hpieces : 0 < (pieces path).length := List.length_pos_iff.2 (splitBy_ne_nil _ _)
      omega
    cases hpieces : pieces path with
    | nil => exact absurd hpieces (splitBy_ne_nil _ _)
    | cons first rest =>
      rw [hall, hpieces, List.map_cons] at hkept
      have hnamed : String.ofList first ≠ "" := by
        have hfirst := List.filter_eq_self.1 hall (String.ofList first) (by simp [hpieces])
        simpa using (Bool.and_eq_true_iff.1 hfirst).1
      have htext : path.toList = (driveUpper (String.ofList first)).toList ++ rest.flatMap (['/'] ++ ·) := by
        conv_lhs => rw [← hjoin, toList_join, hkept, upperFirst, List.map_cons, intercalate_cons, List.map_map]
        simp only [Function.comp_def, String.toList_ofList, List.map_id']
      have htrimmed : trim path.toList = (String.ofList first).toList ++ rest.flatMap (['/'] ++ ·) := by
        rw [← hsplit, hpieces, intercalate_cons, String.toList_ofList]
      have hfixed : trim (trim path.toList) = trim path.toList := trim_eq_self_iff.2 (trim_breaks _)
      rw [htrimmed] at hfixed
      rw [Unpadded, htext]
      exact trim_driveUpper hnamed hfixed

/-- A normal form is its own normal form exactly if it has no blanks at its ends. -/
theorem Tidy.normalize_join_iff (h : Tidy ps) :
    normalize ("/".intercalate ps) = "/".intercalate ps ↔ Unpadded ("/".intercalate ps) :=
  ⟨unpadded_of_normalize_eq, fun hends => by rw [normalize, h.parts_join hends]⟩

def IsPlace (key : String) : Prop := ∃ ps, Tidy ps ∧ key = "/".intercalate ps

theorem isPlace_normalize (path : String) : IsPlace (normalize path) := ⟨parts path, tidy_parts path, rfl⟩

theorem IsPlace.normalize_eq_iff (h : IsPlace key) : normalize key = key ↔ Unpadded key := by
  obtain ⟨ps, htidy, rfl⟩ := h
  exact htidy.normalize_join_iff

/-- What is above a place is joined from the first of its parts. -/
theorem IsPlace.above (h : IsPlace below) (habove : Above key below) : IsPlace key := by
  obtain ⟨ps, htidy, rfl⟩ := h
  obtain ⟨-, base, hbase⟩ := above_iff_split.1 habove
  have hsep : ['/'] ≠ [] := List.cons_ne_nil _ _
  have hboth : (splitBy ['/'] key.toList ++ splitBy ['/'] base) = ps.map String.toList := by
    have hnone : ps ≠ [] := by
      rintro rfl
      simp at hbase
    refine intercalate_inj ?_ htidy.free (List.append_ne_nil_of_left_ne_nil (splitBy_ne_nil _ _) _) (by simpa using hnone) ?_
    · intro p hp
      exact (List.mem_append.1 hp).elim not_mem_of_splitBy not_mem_of_splitBy
    · rw [intercalate_append _ (splitBy_ne_nil _ _) (splitBy_ne_nil _ _), intercalate_splitBy hsep,
        intercalate_splitBy hsep, ← toList_join, hbase]
      rfl
  refine ⟨ps.take (splitBy ['/'] key.toList).length, htidy.take _, ?_⟩
  rw [← String.toList_inj, toList_join, List.map_take, ← hboth, List.take_left, intercalate_splitBy hsep]

end Path

namespace MemoryFiles

open DeskScript.Path

variable {m : MemoryFiles} {files : List (String × String)}

def InPlace (m : MemoryFiles) : Prop := ∀ key, m.IsFile key ∨ m.IsDirectory key → IsPlace key

theorem isPlace_of_makes {c : FileCall} {key : String} (h : m.Makes c key) : IsPlace key := by
  obtain ⟨henters, -⟩ := h
  cases c with
  | write path text => exact (isPlace_normalize path).above henters
  | mkdir path =>
    obtain ⟨-, rfl | habove⟩ := henters
    · exact isPlace_normalize path
    · exact (isPlace_normalize path).above habove
  | read | delete | exists_ => exact henters.elim

theorem inPlace_new : InPlace {} := by
  rintro key (hfile | hdirectory)
  · exact absurd hfile List.not_mem_nil
  · rw [List.mem_singleton.1 hdirectory]
    exact isPlace_normalize "C:"

theorem InPlace.after (h : m.InPlace) (hkept : m.WellKept) (c : FileCall) : (m.after c).InPlace := by
  rintro key (hfile | hdirectory)
  · rcases (isFile_after hkept.distinct).1 hfile with ⟨content, path, -, rfl, -⟩ | ⟨hold, -⟩
    · exact isPlace_normalize path
    · exact h key (.inl hold)
  · rcases isDirectory_after.1 hdirectory with hmakes | ⟨hold, -⟩
    · exact isPlace_of_makes hmakes
    · exact h key (.inr hold)

theorem inPlace_run (history : List FileCall) : (({} : MemoryFiles).run history).InPlace :=
  (run_induction (P := fun m => m.WellKept ∧ m.InPlace) ⟨wellKept_new, inPlace_new⟩
    (fun _ c h => ⟨h.1.after c, h.2.after h.1 c⟩) history).2

/-- **Normal forms.** The normal form of a path, and each place under which files in memory keep a file or a directory,
is its own normal form exactly if there are no blanks at its ends. A file whose place is such a text is read by it. -/
theorem normalize_key_iff (hnew : ofList files = .ok m) (calls : List FileCall) :
    (∀ path, normalize (normalize path) = normalize path ↔ Unpadded (normalize path)) ∧
    (∀ key, (m.run calls).IsFile key ∨ (m.run calls).IsDirectory key → (normalize key = key ↔ Unpadded key)) ∧
    ∀ key content, (m.run calls).files.get? key = some content → Unpadded key →
      (m.run calls).answer (.read key) = .ok (.content content) := by
  rw [run_ofList hnew]
  have hplaces := inPlace_run (given files ++ calls)
  refine ⟨fun path => (isPlace_normalize path).normalize_eq_iff, fun key hkey => (hplaces key hkey).normalize_eq_iff,
    fun key content hthere hends => ?_⟩
  have hkey := (hplaces key (.inl (isFile_iff.2 ⟨content, hthere⟩))).normalize_eq_iff.2 hends
  rw [answer_read, hkey, hthere]

def paddedFile : MemoryFiles := { files := [(" a", "x")] }

theorem ofList_paddedFile : ofList [("/ a", "x")] = .ok paddedFile := by decide +kernel

/-- Blanks are taken off before the slash in front of them is, so the normal form has another normal form, and by its
own place the file is not found. -/
theorem normalize_padded : ofList [("/ a", "x")] = .ok paddedFile ∧ normalize "/ a" = " a" ∧
    normalize (normalize "/ a") = "a" ∧ paddedFile.IsFile " a" ∧
    paddedFile.answer (.read " a") = .error (.refused "file not found:  a") :=
  ⟨ofList_paddedFile, by decide +kernel, by decide +kernel, by decide +kernel, by decide +kernel⟩

/-- Blanks within a place do no harm. -/
theorem normalize_key_iff_blanks : ofList [("/ a", "x")] = .ok paddedFile ∧
    (paddedFile.run [.write "c:\\ b" "y"]).files.get? "C:/ b" = some "y" ∧ Unpadded "C:/ b" ∧
    normalize "C:/ b" = "C:/ b" ∧ (paddedFile.run [.write "c:\\ b" "y"]).answer (.read "C:/ b") = .ok (.content "y") ∧
    ¬ normalize " a" = " a" := by
  have hthere : (paddedFile.run [.write "c:\\ b" "y"]).files.get? "C:/ b" = some "y" := by decide +kernel
  have hends : Unpadded "C:/ b" := by decide +kernel
  obtain ⟨hpaths, hkeys, hread⟩ := normalize_key_iff ofList_paddedFile [.write "c:\\ b" "y"]
  refine ⟨ofList_paddedFile, hthere, hends, (hkeys _ (.inl (isFile_iff.2 ⟨_, hthere⟩))).2 hends,
    hread _ _ hthere hends, fun hsame => ?_⟩
  have hpadded : ¬ Unpadded " a" := by decide +kernel
  exact hpadded ((hkeys " a" (.inl (by decide +kernel))).1 hsame)

end MemoryFiles

end DeskScript
