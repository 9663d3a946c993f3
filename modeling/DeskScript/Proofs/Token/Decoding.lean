import DeskScript.Proofs.Token.DottedName
import DeskScript.Proofs.Token.Scan
import Mathlib.Data.List.Chain

set_option autoImplicit false

/-!
# Quoted texts decode what was encoded

A list of pieces is written between double quotes, with its texts escaped and its references behind a `$`, so that the
whole is one token with these pieces. For this a text behind a reference must not go on with the name. Between single
quotes any text can be written. Main statement: `tokenize_quoted`.
-/

namespace DeskScript

open DeskScript.Text

namespace Token

/-- A character between quotes. A backslash stands before a quote, a backslash and a `$`, and a line end is `\n`. -/
def encoded (quote c : Char) : List Char :=
  if c = quote || c = '\\' || c = '$' then ['\\', c] else if c = '\n' then ['\\', 'n'] else [c]

theorem encodes_encoded {quote : Char} (hquote : quote = '"' ∨ quote = '\'') (c : Char) :
    Encodes quote c (encoded quote c) := by
  by_cases hspecial : c = quote ∨ c = '\\' ∨ c = '$'
  · have hself : unescape c = c := by
      rcases hspecial with rfl | rfl | rfl
      · rcases hquote with rfl | rfl <;> rfl
      · rfl
      · rfl
    have hencoded : encoded quote c = ['\\', c] := by simp [encoded, or_assoc, hspecial]
    rw [hencoded]
    exact .escape hself
  by_cases hn : c = '\n'
  · subst hn
    have hencoded : encoded quote '\n' = ['\\', 'n'] := by simp_all [encoded]
    rw [hencoded]
    exact .escape rfl
  · have hencoded : encoded quote c = [c] := by simp_all [encoded]
    obtain ⟨hq, hb, hv⟩ : c ≠ quote ∧ c ≠ '\\' ∧ c ≠ '$' := by simpa using hspecial
    rw [hencoded]
    exact .plain hq hn hb (.inr hv)

/-- Escaping does not make a text go on with a name that is before it. -/
theorem stopsName_encoded {cs rest : List Char} (hcs : stopsName isNameStart cs = true)
    (hrest : stopsName isNameStart rest = true) (hstart : beginsWith isNameStart rest = false) :
    stopsName isNameStart (cs.flatMap (encoded '"') ++ rest) = true := by
  have hhead (c : Char) : encoded '"' c = [c] ∨ ∃ e, encoded '"' c = ['\\', e] := by
    unfold encoded
    grind
  cases cs with
  | nil => exact hrest
  | cons c cs =>
    obtain ⟨hc, hpoint⟩ := Bool.or_eq_false_iff.1 (Bool.not_eq_true' _ ▸ hcs)
    rw [List.flatMap_cons]
    rcases hhead c with hplain | ⟨e, hescape⟩
    · rw [hplain, List.append_assoc, List.singleton_append, stopsName, hc, Bool.false_or]
      by_cases hdot : c = '.'
      · cases cs with
        | nil => simp [hstart]
        | cons d cs =>
          have hd : isNameStart d = false := by simpa [hdot, beginsWith] using hpoint
          rcases hhead d with hplain | ⟨e, hescape⟩
          · simp [hplain, beginsWith, hd]
          · have hbackslash : isNameStart '\\' = false := by decide
            simp [hescape, beginsWith, hbackslash]
      · simp [hdot]
    · have hbackslash : isNameChar '\\' = false := by decide
      simp [hescape, stopsName, hbackslash]

end Token

namespace Piece

def written : Piece → List Char
  | text s => s.toList.flatMap (Token.encoded '"')
  | reference path => '$' :: path.toList

inductive Sound : Piece → Prop where
  | text {s : String} (hs : s ≠ "") : Sound (.text s)
  | reference (d : DottedName) : Sound (.reference d.text)

/-- Two pieces that can be told apart: not both are texts, and a text does not go on with a name before it. -/
def Parted : Piece → Piece → Prop
  | text _, text _ => False
  | reference _, text s => Token.stopsName isNameStart s.toList = true
  | _, reference _ => True

end Piece

structure Wording where
  pieces : List Piece
  sound : ∀ p ∈ pieces, p.Sound
  parted : pieces.IsChain Piece.Parted

namespace Wording

def written (w : Wording) : List Char := '"' :: w.pieces.flatMap Piece.written ++ ['"']

def content : List Piece → Content
  | [] => .text ""
  | [.text s] => .text s
  | pieces => .template pieces

theorem content_of_reference {pieces : List Piece} {path : String} (h : .reference path ∈ pieces) :
    content pieces = .template pieces := by
  unfold content
  split
  · contradiction
  · simp at h
  · rfl

end Wording

namespace Token

theorem flushText_nil (pieces : List Piece) : flushText pieces [] = pieces := rfl

theorem flushText_text (pieces : List Piece) {s : String} (hs : s ≠ "") :
    flushText pieces s.toList.reverse = .text s :: pieces := by
  have hne : s.toList ≠ [] := by simpa using hs
  simp [flushText, hne]

/-- The end of a quoted text. Only references and what is before them have been put among the pieces. -/
theorem textContent_eq {pieces : List Piece} (hpieces : pieces = [] ∨ ∃ path, .reference path ∈ pieces)
    (chars : List Char) : textContent pieces chars = Wording.content (flushText pieces chars).reverse := by
  rcases hpieces with rfl | ⟨path, hpath⟩
  · cases chars with
    | nil => rfl
    | cons c chars => simp [textContent, flushText, Wording.content]
  · have hmem : .reference path ∈ (flushText pieces chars).reverse := by
      unfold flushText
      split <;> simp [hpath]
    rw [Wording.content_of_reference hmem, textContent, if_neg]
    simpa using List.ne_nil_of_mem hpath

theorem stopsName_written {ps : List Piece} {path : String} (hparted : (.reference path :: ps).IsChain Piece.Parted)
    (rest : List Char) : stopsName isNameStart (ps.flatMap Piece.written ++ '"' :: rest) = true := by
  have hquote : isNameChar '"' = false ∧ isNameStart '"' = false := by decide
  have hdollar : isNameChar '$' = false ∧ isNameStart '$' = false := by decide
  cases ps with
  | nil => simp [stopsName, hquote]
  | cons p ps =>
    cases p with
    | reference _ => simp [Piece.written, stopsName, hdollar]
    | text s =>
      obtain ⟨hs, hmore⟩ := List.isChain_cons_cons.1 hparted
      rw [List.flatMap_cons, List.append_assoc]
      -- behind the text there is the closing quote or the `$` of a reference
      have hnext : ∃ c cs, ps.flatMap Piece.written ++ '"' :: rest = c :: cs ∧ (c = '"' ∨ c = '$') := by
        cases ps with
        | nil => exact ⟨_, _, rfl, .inl rfl⟩
        | cons p ps =>
          cases p with
          | reference _ => exact ⟨_, _, rfl, .inr rfl⟩
          | text _ => exact absurd (List.isChain_cons_cons.1 hmore).1 id
      obtain ⟨c, cs, hcs, hc⟩ := hnext
      rw [hcs]
      apply stopsName_encoded hs
      · rcases hc with rfl | rfl <;> simp [stopsName, hquote, hdollar]
      · rcases hc with rfl | rfl <;> simp [beginsWith, hquote, hdollar]

theorem scanQuoted_pieces {ps : List Piece} (hsound : ∀ p ∈ ps, p.Sound) (hparted : ps.IsChain Piece.Parted)
    (pieces : List Piece) (hpieces : pieces = [] ∨ ∃ path, .reference path ∈ pieces) (chars : List Char)
    (hchars : chars = [] ∨ ∀ s, ps.head? ≠ some (.text s)) (taken rest : List Char) :
    (scanQuoted '"' pieces chars taken (ps.flatMap Piece.written ++ '"' :: rest)).content =
        Wording.content ((flushText pieces chars).reverse ++ ps) ∧
      (scanQuoted '"' pieces chars taken (ps.flatMap Piece.written ++ '"' :: rest)).rest = rest := by
  induction ps generalizing pieces chars taken with
  | nil =>
    rw [List.flatMap_nil, List.nil_append, scanQuoted_close, List.append_nil]
    exact ⟨textContent_eq hpieces chars, rfl⟩
  | cons p ps ih =>
    obtain ⟨hp, hps⟩ := List.forall_mem_cons.1 hsound
    have htail := hparted.tail
    rw [List.flatMap_cons, List.append_assoc]
    cases hp with
    | @text s hs =>
      obtain rfl : chars = [] := hchars.resolve_right fun h => h s rfl
      have hmore : ∀ s', ps.head? ≠ some (.text s') := by
        intro s' hhead
        obtain ⟨ps', rfl⟩ := List.head?_eq_some_iff.1 hhead
        exact (List.isChain_cons_cons.1 hparted).1
      rw [Piece.written, scanQuoted_encoded (by decide) (encodes_encoded (.inl rfl)), List.append_nil]
      have hread := ih hps htail pieces hpieces s.toList.reverse (.inr hmore)
        ((s.toList.flatMap (encoded '"')).reverse ++ taken)
      rwa [flushText_text pieces hs, List.reverse_cons, List.append_assoc] at hread
    | reference d =>
      have hname := dottedSpan_dotted (fun n (_ : n ∈ d.more) => n.first_start) (stopsName_written hparted rest)
      rw [Piece.written, DottedName.text, String.toList_ofList, List.cons_append,
        scanQuoted_reference pieces chars taken (beginsWith_dotted d _) hname]
      have hread := ih hps htail (.reference d.text :: flushText pieces chars)
        (.inr ⟨_, List.mem_cons_self⟩) [] (.inl rfl) (d.chars.reverse ++ '$' :: taken)
      rwa [flushText_nil, List.reverse_cons, List.append_assoc] at hread

end Token

/-- Pieces between double quotes are one token: a template with these pieces or, where there is no reference, their text.
Any text between single quotes is one token with this text. -/
theorem tokenize_quoted (file : Option String) :
    (∀ w : Wording, (tokenize (String.ofList w.written) file).map Token.content =
      [Wording.content w.pieces, .finish]) ∧
    ∀ s : String, (tokenize (String.ofList ('\'' :: s.toList.flatMap (Token.encoded '\'') ++ ['\''])) file).map
      Token.content = [.text s, .finish] := by
  constructor
  · intro w
    obtain ⟨hcontent, hrest⟩ := Token.scanQuoted_pieces w.sound w.parted [] (.inl rfl) [] (.inl rfl) ['"'] []
    have hscan (cs : List Char) : Token.scan '"' cs = Token.scanQuoted '"' [] [] ['"'] cs := by simp [Token.scan]
    obtain ⟨span, stop, htokens⟩ := Token.tokenize_single file '"' (w.pieces.flatMap Piece.written ++ ['"'])
      (by decide) (by rw [hscan, hrest])
    rw [Wording.written, List.cons_append, htokens, hscan]
    simpa [Token.flushText_nil] using hcontent
  · intro s
    have hscan (cs : List Char) : Token.scan '\'' cs = Token.scanQuoted '\'' [] [] ['\''] cs := by simp [Token.scan]
    have hread (taken : List Char) : Token.scanQuoted '\'' [] [] taken (s.toList.flatMap (Token.encoded '\'') ++ ['\'']) =
        ⟨.text s, taken.reverse ++ (s.toList.flatMap (Token.encoded '\'') ++ ['\'']), []⟩ := by
      rw [Token.scanQuoted_encoded (by decide) (Token.encodes_encoded (.inr rfl)), Token.scanQuoted_close]
      simp [Token.textContent]
    obtain ⟨span, stop, htokens⟩ := Token.tokenize_single file '\''
      (s.toList.flatMap (Token.encoded '\'') ++ ['\'']) (by decide) (by rw [hscan, hread])
    rw [List.cons_append, htokens, hscan, hread]
    rfl

def Wording.greeting : Wording where
  pieces := [.text "#1:\n", .reference "user.name", .text ".!"]
  sound := by
    have hname : Piece.Sound (.reference "user.name") :=
      .reference ⟨⟨'u', ['s', 'e', 'r'], rfl, List.all_eq_true.1 rfl⟩, [⟨'n', ['a', 'm', 'e'], rfl, List.all_eq_true.1 rfl⟩]⟩
    simpa using ⟨.text (by decide), hname, .text (by decide)⟩
  parted := by
    refine .cons_cons trivial (.cons_cons ?_ (.singleton _))
    change Token.stopsName isNameStart ".!".toList = true
    decide

theorem tokenize_quoted_greeting :
    (tokenize "\"#1:\\n$user.name.!\"").map Token.content =
      [.template [.text "#1:\n", .reference "user.name", .text ".!"], .finish] :=
  (tokenize_quoted none).1 .greeting

end DeskScript
