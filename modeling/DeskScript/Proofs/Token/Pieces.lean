import DeskScript.Proofs.Token.DottedName
import DeskScript.Syntax.Statement

set_option autoImplicit false

/-!
# The pieces of a text

A text falls into plain parts and references, once it is said how a reference begins. Written one after another its
pieces are the text again (`piecesOf_raw`), its references are dotted names (`piecesOf_dotted`), and a stricter rule for
how they begin finds the same pieces exactly if all of them satisfy it (`piecesOf_eq`).
-/

namespace DeskScript

open DeskScript.Text

namespace Piece

def raw : Piece → List Char
  | text s => s.toList
  | reference path => '$' :: path.toList

def Dotted (isStart : Char → Bool) (p : Piece) : Prop :=
  ∀ path, p = .reference path → ∃ d : DottedName, path = d.text ∧ ∀ n ∈ d.names, isStart n.first = true

end Piece

namespace Token

variable {isStart : Char → Bool}

def piecesOf (isStart : Char → Bool) (pieces : List Piece) (chars : List Char) (cs : List Char) : List Piece :=
  match cs with
  | [] => (flushText pieces chars).reverse
  | c :: rest =>
    if c = '$' && beginsWith isStart rest then
      let name := dottedSpan isStart rest
      piecesOf isStart (.reference (String.ofList name.1) :: flushText pieces chars) [] name.2
    else piecesOf isStart pieces (c :: chars) rest
termination_by cs.length
decreasing_by
  · have := dottedSpan_length isStart rest
    simp
    omega
  · simp

theorem rawPieces_eq (pieces : List Piece) (chars cs : List Char) :
    Parse.rawPieces pieces chars cs = piecesOf Parse.isRawStart pieces chars cs := by
  fun_induction Parse.rawPieces pieces chars cs with
  | case1 => rw [piecesOf]
  | case2 pieces chars c rest hc name ih => rw [piecesOf, if_pos hc, ih]
  | case3 pieces chars c rest hc ih => rw [piecesOf, if_neg hc, ih]

theorem mem_flushText {p : Piece} {pieces : List Piece} {chars : List Char} (h : p ∈ flushText pieces chars) :
    p ∈ pieces ∨ ∃ s, p = .text s := by
  unfold flushText at h
  split at h
  · exact .inl h
  · exact (List.mem_cons.1 h).symm.imp_right fun h => ⟨_, h⟩

theorem mem_flushText_of_mem {p : Piece} {pieces : List Piece} (chars : List Char) (h : p ∈ pieces) :
    p ∈ flushText pieces chars := by
  unfold flushText
  split
  · exact h
  · exact List.mem_cons_of_mem _ h

theorem flushText_raw (pieces : List Piece) (chars : List Char) :
    (flushText pieces chars).reverse.flatMap Piece.raw = pieces.reverse.flatMap Piece.raw ++ chars.reverse := by
  unfold flushText
  split
  · simp_all
  · simp [Piece.raw]

theorem piecesOf_raw (isStart : Char → Bool) (pieces : List Piece) (chars cs : List Char) :
    (piecesOf isStart pieces chars cs).flatMap Piece.raw = pieces.reverse.flatMap Piece.raw ++ chars.reverse ++ cs := by
  fun_induction piecesOf isStart pieces chars cs with
  | case1 pieces chars => rw [flushText_raw, List.append_nil]
  | case2 pieces chars c rest hc name ih =>
    obtain ⟨rfl, -⟩ : c = '$' ∧ _ := by simpa using hc
    have hsplit : name.1 ++ name.2 = rest := dottedSpan_split isStart rest
    rw [ih, List.reverse_cons, List.flatMap_append, flushText_raw]
    simp [Piece.raw, hsplit]
  | case3 pieces chars c rest hc ih => simp [ih]

theorem mem_piecesOf {p : Piece} {pieces : List Piece} (chars cs : List Char) (h : p ∈ pieces) :
    p ∈ piecesOf isStart pieces chars cs := by
  fun_induction piecesOf isStart pieces chars cs with
  | case1 pieces chars => exact List.mem_reverse.2 (mem_flushText_of_mem chars h)
  | case2 pieces chars c rest hc name ih => exact ih (List.mem_cons_of_mem _ (mem_flushText_of_mem chars h))
  | case3 pieces chars c rest hc ih => exact ih h

theorem flushText_dotted {pieces : List Piece} (h : ∀ p ∈ pieces, p.Dotted isStart) (chars : List Char) :
    ∀ p ∈ flushText pieces chars, p.Dotted isStart := by
  intro p hp path hpath
  rcases mem_flushText hp with hp | ⟨s, rfl⟩
  · exact h p hp path hpath
  · contradiction

theorem piecesOf_dotted (hstart : ∀ c, isStart c = true → isNameStart c = true) (pieces : List Piece)
    (h : ∀ p ∈ pieces, p.Dotted isStart) (chars cs : List Char) :
    ∀ p ∈ piecesOf isStart pieces chars cs, p.Dotted isStart := by
  fun_induction piecesOf isStart pieces chars cs with
  | case1 pieces chars => simpa using flushText_dotted h chars
  | case2 pieces chars c rest hc name ih =>
    obtain ⟨-, hbegins⟩ : c = '$' ∧ beginsWith isStart rest = true := by simpa using hc
    obtain ⟨d, hd, hnames⟩ := exists_dotted hstart hbegins
    refine ih (List.forall_mem_cons.2 ⟨?_, flushText_dotted h chars⟩)
    intro path hpath
    obtain rfl : String.ofList name.1 = path := Piece.reference.inj hpath
    exact ⟨d, congrArg String.ofList hd, hnames⟩
  | case3 pieces chars c rest hc ih => exact ih h

theorem piecesOf_plain {chars cs : List Char} (h : ∀ path, .reference path ∉ piecesOf isStart [] chars cs) :
    piecesOf isStart [] chars cs = (flushText [] (cs.reverse ++ chars)).reverse := by
  induction cs generalizing chars with
  | nil => rw [piecesOf, List.reverse_nil, List.nil_append]
  | cons c rest ih =>
    by_cases hc : (c = '$' && beginsWith isStart rest) = true
    · rw [piecesOf, if_pos hc] at h
      exact absurd (mem_piecesOf _ _ List.mem_cons_self) (h _)
    · rw [piecesOf, if_neg hc] at h ⊢
      rw [ih h, List.reverse_cons, List.append_assoc, List.singleton_append]

theorem beginsWith_mono {isStart' : Char → Bool} (himp : ∀ c, isStart' c = true → isStart c = true) {cs : List Char}
    (h : beginsWith isStart' cs = true) : beginsWith isStart cs = true := by
  cases cs with
  | nil => exact h
  | cons c cs => exact himp c h

theorem stopsName_mono {isStart' : Char → Bool} (himp : ∀ c, isStart' c = true → isStart c = true) {cs : List Char}
    (h : stopsName isStart cs = true) : stopsName isStart' cs = true := by
  cases cs with
  | nil => rfl
  | cons c cs =>
    rw [stopsName, Bool.not_eq_true'] at h ⊢
    rw [Bool.eq_false_iff] at h ⊢
    refine mt (fun hgoes => ?_) h
    rw [Bool.or_eq_true, Bool.and_eq_true] at hgoes ⊢
    exact hgoes.imp_right (And.imp_right (beginsWith_mono himp))

/-- A stricter rule finds the same pieces if all names in them satisfy it. -/
theorem piecesOf_eq {isStart' : Char → Bool} (hstart : ∀ c, isStart c = true → isNameStart c = true)
    (himp : ∀ c, isStart' c = true → isStart c = true) {pieces : List Piece} {chars cs : List Char}
    (h : ∀ p ∈ piecesOf isStart pieces chars cs, ∀ d : DottedName, p = .reference d.text →
      ∀ n ∈ d.names, isStart' n.first = true) :
    piecesOf isStart' pieces chars cs = piecesOf isStart pieces chars cs := by
  fun_induction piecesOf isStart pieces chars cs with
  | case1 pieces chars => rw [piecesOf]
  | case2 pieces chars c rest hc name ih =>
    obtain ⟨rfl, hbegins⟩ : c = '$' ∧ beginsWith isStart rest = true := by simpa using hc
    obtain ⟨d, hd, -⟩ := exists_dotted hstart hbegins
    have hnames : ∀ n ∈ d.names, isStart' n.first = true :=
      h _ (mem_piecesOf _ _ List.mem_cons_self) d (congrArg (Piece.reference ∘ String.ofList) hd)
    have hrest : rest = d.chars ++ name.2 := by rw [← hd, dottedSpan_split]
    have hstops : stopsName isStart' name.2 = true := stopsName_mono himp (dottedSpan_stops isStart rest)
    have hread : dottedSpan isStart' rest = name := by
      rw [hrest, dottedSpan_dotted (fun n hn => hnames n (List.mem_cons_of_mem _ hn)) hstops, ← hd]
    have hbegins' : beginsWith isStart' rest = true := by
      rw [hrest]
      exact hnames d.first List.mem_cons_self
    rw [piecesOf, if_pos (by simpa using hbegins'), hread]
    exact ih h
  | case3 pieces chars c rest hc ih =>
    have hc' : ¬ (c = '$' && beginsWith isStart' rest) = true := by
      rw [Bool.and_eq_true] at hc ⊢
      exact mt (And.imp_right (beginsWith_mono himp)) hc
    rw [piecesOf, if_neg hc']
    exact ih h

end Token

namespace Parse

theorem isNameStart_of_isRawStart (c : Char) (h : isRawStart c = true) : isNameStart c = true := by
  rw [isRawStart, Bool.or_eq_true] at h
  rw [isNameStart, Bool.or_eq_true]
  refine h.imp_left fun hletter => ?_
  have hascii : c.toNat < 128 := by
    simp only [isAsciiLetter, Bool.or_eq_true, Bool.and_eq_true, decide_eq_true_eq, Char.le_def, UInt32.le_iff_toNat_le]
      at hletter
    have hvalues : 'Z'.val.toNat = 90 ∧ 'z'.val.toNat = 122 := by decide
    simp only [Char.toNat]
    omega
  rw [isLetter, if_pos hascii, hletter]

theorem pathSegment_dotted (d : DottedName) :
    pathSegment d.text = .reference d.first.text (d.more.map Name.text) := by
  rw [pathSegment, d.split_text]
  rfl

end Parse

end DeskScript
