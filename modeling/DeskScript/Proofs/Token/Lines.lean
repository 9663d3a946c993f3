import DeskScript.Proofs.Token.Parting
import DeskScript.Proofs.Token.Tiling
import Mathlib.Data.List.Forall2

set_option autoImplicit false

/-!
# Tokens of one text after another

If a text has no malformed token and leaves no bracket open, its tokens are read again in front of a line end and
whatever follows it (`tokenize_line`). The tokens behind the line end are those of the second text, further on.
-/

namespace DeskScript

namespace Token

variable {depth : Nat} {inComment : Bool} {cs gap rest : List Char} {c : Char}

/-- A gap before a token does not depend on what follows the text. -/
theorem gapSpan_append (h : gapSpan depth inComment cs = (gap, c :: rest)) (more : List Char) :
    gapSpan depth inComment (cs ++ more) = (gap, c :: rest ++ more) := by
  induction cs generalizing inComment gap with
  | nil => simp [gapSpan] at h
  | cons d cs ih =>
    have hagain {b : Bool} (h : (gapSpan depth b cs).2 = c :: rest) :
        gapSpan depth b (cs ++ more) = ((gapSpan depth b cs).1, c :: rest ++ more) := ih (Prod.ext rfl h)
    rw [List.cons_append]
    unfold gapSpan at h ⊢
    split_ifs at h ⊢
    all_goals simp only [Prod.mk.injEq] at h
    all_goals obtain ⟨rfl, hleft⟩ := h
    · rw [hagain hleft]
    · rw [← List.cons_append, hleft]
    · rw [hagain hleft]
    · rw [hagain hleft]
    · rw [← List.cons_append, hleft]

/-- With no bracket open, the gap at the end of a text reaches to the line end behind it. -/
theorem gapSpan_line (h : gapSpan 0 inComment cs = (gap, [])) (more : List Char) :
    gapSpan 0 inComment (cs ++ '\n' :: more) = (gap, '\n' :: more) := by
  induction cs generalizing inComment gap with
  | nil =>
    cases h
    simp [gapSpan]
  | cons d cs ih =>
    have hagain {b : Bool} (h : (gapSpan 0 b cs).2 = []) :
        gapSpan 0 b (cs ++ '\n' :: more) = ((gapSpan 0 b cs).1, '\n' :: more) := ih (Prod.ext rfl h)
    rw [List.cons_append]
    unfold gapSpan at h ⊢
    split_ifs at h ⊢
    all_goals simp only [Prod.mk.injEq] at h
    all_goals obtain ⟨rfl, hleft⟩ := h
    · contradiction
    · contradiction
    · rw [hagain hleft]
    · rw [hagain hleft]
    · contradiction

structure Moved (a : Nat) (t₁ t₂ : Token) : Prop where
  content : t₂.content = t₁.content
  lexeme : t₂.lexeme = t₁.lexeme
  start : t₂.span.start.offset = t₁.span.start.offset + a
  stop : t₂.span.stop.offset = t₁.span.stop.offset + a

theorem scanAll_moved (file : Option String) (depth a : Nat) {here here' : Location} (cs : List Char)
    (h : here'.offset = here.offset + a) :
    List.Forall₂ (Moved a) (scanAll file depth here cs) (scanAll file depth here' cs) := by
  -- on the length of what is left: a token takes at least one character
  induction hn : cs.length using Nat.strongRecOn generalizing depth here here' cs with
  | _ n ih =>
    have hmoved {l l' : Location} (ds : List Char) (h : l'.offset = l.offset + a) :
        (l'.after ds).offset = (l.after ds).offset + a := by
      rw [Location.after_offset, Location.after_offset, h]
      omega
    obtain ⟨gap, left, hg⟩ : ∃ gap left, gapSpan depth false cs = (gap, left) := ⟨_, _, rfl⟩
    have hsplit := gapSpan_split depth false cs
    have hgap := hmoved gap h
    cases left with
    | nil =>
      rw [scanAll_of_gap file here hg, scanAll_of_gap file here' hg]
      exact .cons ⟨rfl, rfl, hgap, hgap⟩ .nil
    | cons c rest =>
      have hshort := scan_rest_length c rest
      have hlength : gap.length + (c :: rest).length = n := by rw [← hn, ← hsplit, hg, List.length_append]
      have htaken := hmoved (scan c rest).taken hgap
      rw [scanAll_of_token file here hg, scanAll_of_token file here' hg]
      exact .cons ⟨rfl, rfl, hgap, htaken⟩ (ih _ (by omega) _ _ htaken rfl)

def lineEnd (file : Option String) (l : Location) : Token := ⟨.newline, "\\n", ⟨l, l.next '\n', file⟩⟩

theorem scanAll_line (file : Option String) (depth : Nat) (here : Location) (cs more : List Char)
    (hfault : ∀ t ∈ scanAll file depth here cs, t.isFault = false)
    (hopen : openBrackets depth (scanAll file depth here cs) = 0) :
    ∃ body last, scanAll file depth here cs = body ++ [last] ∧
      scanAll file depth here (cs ++ '\n' :: more) =
        body ++ lineEnd file (here.after cs) :: scanAll file 0 ((here.after cs).next '\n') more := by
  -- What is left behind a gap and a token is shorter. That all brackets are closed is used where nothing is left: the line
  -- end is a token there.
  induction hn : cs.length using Nat.strongRecOn generalizing depth here cs with
  | _ n ih =>
    obtain ⟨gap, left, hg⟩ : ∃ gap left, gapSpan depth false cs = (gap, left) := ⟨_, _, rfl⟩
    have hsplit := gapSpan_split depth false cs
    rw [hg] at hsplit
    cases left with
    | nil =>
      rw [scanAll_of_gap file here hg] at hopen ⊢
      obtain rfl : depth = 0 := by
        simp only [openBrackets, List.foldl_cons, List.foldl_nil, Content.bracketChange] at hopen
        omega
      obtain rfl : gap = cs := by simpa using hsplit
      refine ⟨[], _, rfl, ?_⟩
      rw [scanAll_of_token file here (gapSpan_line hg more)]
      rfl
    | cons c rest =>
      have hshort := scan_rest_length c rest
      have hlength : gap.length + (c :: rest).length = n := by rw [← hn, ← hsplit, List.length_append]
      rw [scanAll_of_token file here hg] at hfault hopen ⊢
      have hsound := hfault _ List.mem_cons_self
      have hcontent (f : LexicalFault) : (scan c rest).content ≠ .fault f := by
        intro h
        simp [isFault, h] at hsound
      have hafter : openBrackets (depthAfter depth (scan c rest).content) (scanAll file
          (depthAfter depth (scan c rest).content) ((here.after gap).after (scan c rest).taken) (scan c rest).rest) = 0 := by
        rw [depthAfter_eq]
        exact hopen
      obtain ⟨body, last, hbody, hline⟩ := ih _ (by omega) _ _ _
        (fun t ht => hfault t (List.mem_cons_of_mem _ ht)) hafter rfl
      refine ⟨_ :: body, last, by rw [hbody]; rfl, ?_⟩
      have hagain : gapSpan depth false (cs ++ '\n' :: more) = (gap, c :: (rest ++ '\n' :: more)) := gapSpan_append hg _
      have hplace : ((here.after gap).after (scan c rest).taken).after (scan c rest).rest = here.after cs := by
        rw [← Location.after_append, ← Location.after_append, scan_split, ← hsplit]
      rw [scanAll_of_token file here hagain, scan_append (by decide) hcontent]
      dsimp only
      rw [hline, hplace]
      rfl

end Token

/-- The tokens of a text in front of a line end and another text. -/
theorem tokenize_line {source : String} {file : Option String} (h : ∀ t ∈ tokenize source file, t.isFault = false)
    (hopen : Token.openBrackets 0 (tokenize source file) = 0) (more : String) :
    ∃ body last after border, tokenize source file = body ++ [last] ∧ border.content = .newline ∧
      tokenize (source ++ "\n" ++ more) file = body ++ border :: after ∧
      List.Forall₂ (Token.Moved (source.toList.length + 1)) (tokenize more file) after := by
  obtain ⟨body, last, hbody, hline⟩ := Token.scanAll_line file 0 Location.origin source.toList more.toList h hopen
  have hfurther : ((Location.origin.after source.toList).next '\n').offset = 0 + (source.toList.length + 1) := by
    rw [Location.next_offset, Location.origin_after_offset, Nat.zero_add]
  refine ⟨body, last, _, Token.lineEnd file (Location.origin.after source.toList), hbody, rfl, ?_,
    Token.scanAll_moved file 0 _ more.toList hfurther⟩
  rw [← hline, tokenize]
  simp

end DeskScript
