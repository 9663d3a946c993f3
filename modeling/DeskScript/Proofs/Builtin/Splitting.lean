import DeskScript.Proofs.Builtin.Calls
import DeskScript.Proofs.Text.Splitting

set_option autoImplicit false

/-!
# Splitting, joining and replacing texts

A text is split into its characters by the empty separator and at each occurrence of any other. Main statement:
`Builtin.splits_join`.
-/

namespace DeskScript

open Text

variable {cs sep : List Char}

/-- The characters of a text with nothing between them are the text. -/
theorem intercalate_characters (cs : List Char) : [].intercalate (cs.map fun c => c.toString.toList) = cs := by
  induction cs with
  | nil => rfl
  | cons c cs ih =>
    by_cases hlast : cs = []
    · simp [hlast]
    · rw [List.map_cons, List.intercalate_cons_of_ne_nil (by simpa using hlast), ih]
      simp

theorem join_splitParts (s sep : String) : sep.intercalate (TextFn.splitParts s.toList sep.toList) = s := by
  rw [← String.toList_inj, String.toList_intercalate]
  unfold TextFn.splitParts
  by_cases hempty : sep.toList = []
  · rw [hempty, List.isEmpty_nil, if_pos rfl, List.map_map]
    exact intercalate_characters s.toList
  · rw [List.isEmpty_eq_false_iff.2 hempty, if_neg Bool.false_ne_true, List.map_map]
    have hparts : (splitBy sep.toList s.toList).map (String.toList ∘ String.ofList) = splitBy sep.toList s.toList := by
      simp [Function.comp_def]
    rw [hparts, intercalate_splitBy hempty]

theorem splitParts_free {s sep : String} (hsep : sep ≠ "") :
    ∀ part ∈ TextFn.splitParts s.toList sep.toList, ¬sep.toList <:+: part.toList := by
  have hsep : sep.toList ≠ [] := by simpa using hsep
  unfold TextFn.splitParts
  rw [List.isEmpty_eq_false_iff.2 hsep, if_neg Bool.false_ne_true, List.forall_mem_map]
  intro part hpart
  rw [String.toList_ofList]
  exact splitBy_free hsep s.toList part hpart

/-- Between the parts of a text the new one stands in place of what it was split at. -/
theorem replaceEach_eq_join (s new : String) {needle : String} (hneedle : needle ≠ "") :
    String.ofList (replaceEach s.toList needle.toList new.toList) =
      new.intercalate (TextFn.splitParts s.toList needle.toList) := by
  have hneedle : needle.toList ≠ [] := by simpa using hneedle
  rw [← String.toList_inj, String.toList_intercalate, String.toList_ofList, replaceEach_eq_intercalate]
  unfold TextFn.splitParts
  rw [List.isEmpty_eq_false_iff.2 hneedle, if_neg Bool.false_ne_true, List.map_map]
  simp [Function.comp_def]

namespace Builtin

variable {h : Heap} {host : Host}

theorem call_split (h : Heap) (host : Host) (s sep : String) : call "split" h host [.str s, .str sep] =
    .makes h host ((TextFn.splitParts s.toList sep.toList).map .str) :=
  call_gives (find?_text (f := .split) (by decide)) rfl rfl

theorem call_join (h : Heap) (host : Host) (parts : List String) (sep : String) :
    call "join" (h.plus (parts.map .str)) host [.arr h.arrays.size, .str sep] =
      .gives (h.plus (parts.map .str)) host (.str (sep.intercalate parts)) := by
  have htexts : ((h.plus (parts.map .str)).items h.arrays.size).toList.map (h.plus (parts.map .str)).display = parts := by
    rw [h.items_plus, List.map_map]
    exact List.map_id parts
  refine call_gives (find?_text (f := .join) (by decide)) rfl ?_
  exact congrArg (fun texts => Reached.gives (h.plus (parts.map .str)) host (.str (sep.intercalate texts))) htexts

theorem call_replaceAll (h : Heap) (host : Host) (s new : String) {needle : String} (hneedle : needle ≠ "") :
    call "replaceAll" h host [.str s, .str needle, .str new] =
      .gives h host (.str (String.ofList (replaceEach s.toList needle.toList new.toList))) := by
  refine call_gives (find?_text (f := .replaceAll) (by decide)) rfl ?_
  have hneedle : needle.toList.isEmpty = false := by simpa using hneedle
  change reached h host (.chars h (if needle.toList.isEmpty then s.toList else _)) = _
  rw [hneedle]
  rfl

/-- **Splitting.** The parts of a text joined by what it was split at are the text, also if that is the empty text and the
parts are characters. No part has another separator in it, and to replace a text everywhere is to join the parts between
its occurrences by the new one. -/
theorem splits_join (h : Heap) (host : Host) (s sep a b : String) (ha : a ≠ "") :
    ∃ (parts pieces : List String) (t : String),
      call "split" h host [.str s, .str sep] = .makes h host (parts.map .str) ∧
      call "join" (h.plus (parts.map .str)) host [.arr h.arrays.size, .str sep] =
        .gives (h.plus (parts.map .str)) host (.str s) ∧
      (sep ≠ "" → ∀ part ∈ parts, ¬sep.toList <:+: part.toList) ∧
      call "replaceAll" h host [.str s, .str a, .str b] = .gives h host (.str t) ∧
      call "split" h host [.str s, .str a] = .makes h host (pieces.map .str) ∧
      call "join" (h.plus (pieces.map .str)) host [.arr h.arrays.size, .str b] =
        .gives (h.plus (pieces.map .str)) host (.str t) := by
  refine ⟨TextFn.splitParts s.toList sep.toList, TextFn.splitParts s.toList a.toList, _, call_split h host s sep, ?_,
    splitParts_free, call_replaceAll h host s b ha, call_split h host s a, ?_⟩
  · rw [call_join, join_splitParts]
  · rw [call_join, replaceEach_eq_join s b ha]

/-- A text with overlapping occurrences, one of them at its end. -/
theorem splits_join_overlapping : "aa" ≠ "" ∧ ∃ (pieces : List String) (t : String),
    call "replaceAll" {} {} [.str "aaabaa", .str "aa", .str "c"] = .gives {} {} (.str t) ∧
    call "split" {} {} [.str "aaabaa", .str "aa"] = .makes {} {} (pieces.map .str) ∧
    call "join" (Heap.plus {} (pieces.map .str)) {} [.arr 0, .str "c"] =
      .gives (Heap.plus {} (pieces.map .str)) {} (.str t) := by
  have hsome : "aa" ≠ "" := by decide
  obtain ⟨_, pieces, t, -, -, -, hreplaced, hsplit, hjoined⟩ := splits_join {} {} "aaabaa" "" "aa" "c" hsome
  exact ⟨hsome, pieces, t, hreplaced, hsplit, hjoined⟩

example : TextFn.splitParts "aaabaa".toList "aa".toList = ["", "ab", ""] := by decide

example : String.ofList (replaceEach "aaabaa".toList "aa".toList "c".toList) = "cabc" := by decide

end Builtin

end DeskScript
