import DeskScript.Proofs.Syntax.Passing

set_option autoImplicit false

/-!
# What the parsers of expressions pass

Each parser of an expression, over parsers for the levels nested in it, passes at least one token, and the tokens it
passes are sealed: braces are in order, and line ends stand only inside of object literals.
-/

namespace DeskScript

namespace Parse

open Token Passing

variable {α : Type} {c : Cursor}

def Phrasal (p : Parse α) : Prop := ∀ {c : Cursor}, Passing p c (Filled Sealed)

structure Nested.Phrasal (nested : Nested) : Prop where
  expression : Parse.Phrasal nested.expression
  unary : Parse.Phrasal nested.unary

section

variable {operand : Parse Expr} (hoperand : Phrasal operand)
include hoperand

theorem passing_chainFrom {ω : Type} {operator? : Token → Option ω}
    (hoperator : ∀ t op, operator? t = some op → t.isPlain = true) (build : Span → ω → Expr → Expr → Expr)
    (start : Token) (n : Nat) (left : Expr) :
    Passing (chainFrom operand operator? build start n left) c Sealed := by
  induction n generalizing c left with
  | zero => exact .pure left
  | succ n ih =>
    unfold chainFrom
    refine look (gives_here c) ?_
    split
    · exact .pure left
    · rename_i op hop
      refine seq (passing_advance (hoperator _ op hop)).unfilled fun _ _ => ?_
      exact seq hoperand.unfilled fun _ c' => look (gives_spanFrom start c') (ih _)

theorem passing_chain {ω : Type} {operator? : Token → Option ω}
    (hoperator : ∀ t op, operator? t = some op → t.isPlain = true) (build : Span → ω → Expr → Expr → Expr) :
    Phrasal (chain operand operator? build) := by
  intro c
  unfold chain
  refine look (gives_here c) (first hoperand fun _ c' => ?_)
  exact look (gives_rounds c') (passing_chainFrom hoperand hoperator build _ _ _)

theorem passing_itemsFrom (close : Symbol) (n : Nat) (done : List Expr) :
    Passing (itemsFrom operand close n done) c Sealed := by
  induction n generalizing c done with
  | zero => exact .pure _
  | succ n ih =>
    unfold itemsFrom
    refine seq (passing_acceptSymbol (by simp) (by simp)) fun _ c' => ?_
    split
    · refine look (gives_at _ c') ?_
      split
      · exact .pure _
      · exact seq hoperand.unfilled fun _ _ => ih _
    · exact .pure _

theorem passing_itemsUntil {close : Symbol} (hl : close ≠ .leftBrace) (hr : close ≠ .rightBrace) (what : String) :
    Passing (itemsUntil operand close what) c Sealed := by
  unfold itemsUntil
  refine look (gives_at _ c) ?_
  split
  · exact seq (.pure _) fun _ _ => seq (passing_consumeSymbol hl hr what).unfilled fun _ _ => .pure _
  · refine seq hoperand.unfilled fun _ c' => look (gives_rounds c') ?_
    refine seq (passing_itemsFrom hoperand close _ _) fun _ _ => ?_
    exact seq (passing_consumeSymbol hl hr what).unfilled fun _ _ => .pure _

theorem passing_parenArguments : Passing (parenArguments operand) c Sealed := by
  unfold parenArguments
  refine seq (passing_consumeSymbol (by simp) (by simp) _).unfilled fun _ _ => ?_
  exact passing_itemsUntil hoperand (by simp) (by simp) _

theorem passing_arrayLiteral (hhere : c.here.isPlain = true) : Passing (arrayLiteral operand) c (Filled Sealed) := by
  unfold arrayLiteral
  refine first (passing_advance hhere) fun _ _ => ?_
  exact seq (passing_itemsUntil hoperand (by simp) (by simp) _) fun _ c' => look (gives_spanFrom _ c') (.pure _)

omit hoperand in
theorem isPlain_of_objectKey {t : Token} {key : String} (h : objectKey? t = some key) : t.isPlain = true := by
  unfold objectKey? at h
  unfold isPlain
  split at h <;> simp_all

theorem passing_entriesFrom (n : Nat) (done : List (String × Expr)) :
    Passing (entriesFrom operand n done) c Even := by
  induction n generalizing c done with
  | zero => exact .pure _
  | succ n ih =>
    unfold entriesFrom
    refine look (gives_at _ c) ?_
    split
    · exact .pure _
    · refine look (gives_here c) ?_
      split
      · exact passing_expected _
      · rename_i key hkey
        refine seq ((passing_advance (isPlain_of_objectKey hkey)).mono fun _ h => h.2.toEven) fun _ _ => ?_
        refine seq ((passing_consumeSymbol (by simp) (by simp) _).mono fun _ h => h.2.toEven) fun _ _ => ?_
        refine seq passing_skipNewlines fun _ _ => seq (hoperand.mono fun _ h => h.2.toEven) fun _ _ => ?_
        refine seq passing_skipNewlines fun _ _ => ?_
        refine seq ((passing_acceptSymbol (by simp) (by simp)).mono fun _ h => h.toEven) fun _ _ => ?_
        split
        · exact seq passing_skipNewlines fun _ _ => ih _
        · exact .pure _

end

def Closing (P : List Token → Prop) (ts : List Token) : Prop :=
  ∃ us t, ts = us ++ [t] ∧ P us ∧ t.content = .symbol .rightBrace

theorem passing_closeBrace {P : List Token → Prop} [Closed P] (what : String) :
    Passing (consumeSymbol .rightBrace what) c (Closing P) := by
  unfold consumeSymbol consume
  refine look (gives_at _ c) ?_
  split
  · rename_i h
    have hbrace := (hasSymbol_iff _ _).1 h
    refine ⟨fun hc _ _ hrun => ?_, fun _ _ hrun => by cases hrun⟩
    cases hrun
    exact ⟨[c.here], hc.next_tokens (isFinish_eq_false hbrace), [], c.here, rfl, Closed.nil, hbrace⟩
  · exact passing_expected what

theorem passing_openBrace (hhere : c.here.content = .symbol .leftBrace) :
    Passing advance c (fun ts => ∃ t, ts = [t] ∧ t.content = .symbol .leftBrace) := by
  refine ⟨fun hc _ _ hrun => ?_, fun _ _ hrun => by cases hrun⟩
  cases hrun
  exact ⟨[c.here], hc.next_tokens (isFinish_eq_false hhere), c.here, rfl, hhere⟩

theorem Passing.closing {β : Type} {P : List Token → Prop} [Closed P] {p : Parse α} {f : α → Parse β}
    (hp : Passing p c P) (hf : ∀ a c', Passing (f a) c' (Closing P)) : Passing (p >>= f) c (Closing P) := by
  refine hp.bind (fun a c' _ => hf a c') (fun _ => Closed.sound) ?_
  rintro ts _ hts ⟨us, t, rfl, hus, ht⟩
  exact ⟨ts ++ us, t, (List.append_assoc _ _ _).symm, Closed.append hts hus, ht⟩

theorem Passing.closed {β : Type} {P : List Token → Prop} [Closed P] {p : Parse α} {f : α → Parse β}
    (hp : Passing p c (Closing P)) (hf : ∀ a c', Passing (f a) c' (· = [])) : Passing (p >>= f) c (Closing P) := by
  refine hp.bind (fun a c' _ => hf a c') ?_ ?_
  · rintro _ ⟨us, t, rfl, hus, ht⟩ u hu
    rcases List.mem_append.1 hu with hu | hu
    · exact Closed.sound hus u hu
    · obtain rfl := List.mem_singleton.1 hu
      simp [isFault, ht]
  · rintro ts _ hts rfl
    rwa [List.append_nil]

theorem Passing.braced {β : Type} {P R : List Token → Prop} {p : Parse α} {f : α → Parse β}
    (hp : Passing p c fun ts => ∃ t, ts = [t] ∧ t.content = .symbol .leftBrace)
    (hf : ∀ a c', Passing (f a) c' (Closing P))
    (h : ∀ {t us u}, t.content = .symbol .leftBrace → P us → u.content = .symbol .rightBrace → R (t :: (us ++ [u]))) :
    Passing (p >>= f) c (Filled R) := by
  refine hp.bind (fun a c' _ => hf a c') ?_ ?_
  · rintro _ ⟨t, rfl, ht⟩ u hu
    obtain rfl := List.mem_singleton.1 hu
    simp [isFault, ht]
  · rintro _ _ ⟨t, rfl, ht⟩ ⟨us, u, rfl, hus, hu⟩
    exact ⟨by simp, h ht hus hu⟩

theorem Closing.filled {P : List Token → Prop} {ts : List Token} (h : Closing P ts) : Filled (Closing P) ts := by
  refine ⟨?_, h⟩
  obtain ⟨us, t, rfl, -, -⟩ := h
  simp

/-- The closing brace of an object, with line ends in front of it. -/
theorem passing_objectEnd (start : Token) (entries : List (String × Expr)) :
    Passing (do
      skipNewlines
      let _ ← consumeSymbol .rightBrace "'\x7d'"
      return Expr.object (← spanFrom start) entries) c (Closing Even) := by
  refine closing passing_skipNewlines fun _ _ => ?_
  exact closed (passing_closeBrace _) fun _ c' => look (gives_spanFrom _ c') (.pure _)

theorem passing_objectLiteral {expression : Parse Expr} (hexpression : Phrasal expression)
    (hhere : c.here.content = .symbol .leftBrace) : Passing (objectLiteral expression) c (Filled Sealed) := by
  unfold objectLiteral
  refine braced (passing_openBrace hhere) (fun _ _ => ?_) Sealed.enclosed
  refine closing passing_skipNewlines fun _ c' => look (gives_rounds c') ?_
  exact closing (passing_entriesFrom hexpression _ _) fun _ _ => passing_objectEnd _ _

theorem isPlain_of_wordPart {t : Token} (h : isWordPart t = true) : t.isPlain = true := by
  unfold isWordPart at h
  unfold isPlain
  split at h <;> simp_all

theorem passing_wordPartsFrom (n : Nat) (text : String) : Passing (wordPartsFrom n text) c Sealed := by
  induction n generalizing c text with
  | zero => exact .pure text
  | succ n ih =>
    unfold wordPartsFrom
    refine look (gives_at _ c) (look (gives_attached c) ?_)
    split
    · rename_i h
      have hplain := isPlain_of_wordPart (Bool.and_eq_true_iff.1 h).1
      exact seq (passing_advance hplain).unfilled fun _ _ => ih _
    · exact .pure text

theorem passing_gluedWord (hhere : c.here.isPlain = true) : Passing gluedWord c (Filled Sealed) := by
  unfold gluedWord
  refine first (passing_advance hhere) fun _ c' => look (gives_rounds c') ?_
  exact seq (passing_wordPartsFrom _ _) fun _ c' => look (gives_spanFrom _ c') (.pure _)

theorem passing_word {expression : Parse Expr} (hexpression : Phrasal expression) (what : String) :
    Phrasal (word expression what) := by
  intro c
  unfold word
  refine look (gives_here c) ?_
  split
  · exact hexpression
  · exact hexpression
  · exact hexpression
  · exact hexpression
  · split
    · rename_i h
      exact passing_gluedWord (isPlain_of_wordPart h)
    · exact passing_expected what

theorem gives_atBareWord (c : Cursor) : ∃ b, Gives atBareWord c b c ∧ (b = true → c.here.content = .word) := by
  refine ⟨_, rfl, fun h => ?_⟩
  have hword := (Bool.and_eq_true_iff.1 h).1
  split at hword <;> simp_all

theorem passing_constant (hhere : c.here.isPlain = true) (value : Literal) :
    Passing (constant value) c (Filled Sealed) :=
  first (passing_advance hhere) fun _ _ => .pure _

section

variable {nested : Nested} (hnested : nested.Phrasal)
include hnested

theorem passing_spacedFrom (n : Nat) (done : List Expr) : Passing (spacedFrom nested n done) c Sealed := by
  induction n generalizing c done with
  | zero => exact .pure _
  | succ n ih =>
    unfold spacedFrom
    refine look (gives_at _ c) ?_
    split
    · obtain ⟨b, hb, -⟩ := gives_atBareWord c
      refine look hb ?_
      split
      · exact seq (passing_word hnested.expression _).unfilled fun _ _ => ih _
      · exact seq hnested.unary.unfilled fun _ _ => ih _
    · exact .pure _

theorem passing_spacedArguments : Passing (spacedArguments nested) c Sealed :=
  look (gives_rounds c) (passing_spacedFrom hnested _ _)

theorem passing_namedCall (hhere : c.here.isPlain = true) : Passing (namedCall nested) c (Filled Sealed) := by
  unfold namedCall
  refine first (passing_advance hhere) fun _ _ => ?_
  exact seq (passing_parenArguments hnested.expression) fun _ c' => look (gives_spanFrom _ c') (.pure _)

theorem passing_callCommand (hhere : c.here.isPlain = true) : Passing (callCommand nested) c (Filled Sealed) := by
  unfold callCommand
  refine first (passing_advance hhere) fun _ c' => look (gives_here c') ?_
  split
  · rename_i hname
    refine seq (passing_advance (isPlain_of_nameLike hname)).unfilled fun _ c' => look (gives_here c') ?_
    split
    · exact seq (passing_parenArguments hnested.expression) fun _ c' => look (gives_spanFrom _ c') (.pure _)
    · exact seq (passing_spacedArguments hnested) fun _ c' => look (gives_spanFrom _ c') (.pure _)
  · exact passing_expected _

theorem passing_primary : Phrasal (primary nested) := by
  intro c
  unfold primary
  refine look (gives_here c) (look (gives_get c) ?_)
  split <;> rename_i hhere
  all_goals try have hplain : c.here.isPlain = true := by simp [isPlain, hhere]
  · exact passing_constant hplain _
  · exact passing_constant hplain _
  · exact first (passing_advance hplain) fun _ _ => .pure _
  · exact passing_constant hplain _
  · exact passing_constant hplain _
  · exact passing_constant hplain _
  · exact first (passing_advance hplain) fun _ _ => .pure _
  · refine first (passing_advance hplain) fun _ _ => seq hnested.expression.unfilled fun _ _ => ?_
    exact seq (passing_consumeSymbol (by simp) (by simp) _).unfilled fun _ _ => .pure _
  · exact passing_arrayLiteral hnested.expression hplain
  · exact passing_objectLiteral hnested.expression hhere
  · exact passing_callCommand hnested hplain
  · dsimp only
    split
    · exact passing_namedCall hnested hplain
    · exact passing_constant hplain _
  · dsimp only
    split
    · exact passing_namedCall hnested hplain
    · exact passing_expected _
  · exact passing_expected _

end

theorem passing_memberName : Passing memberName c (Filled Sealed) := by
  unfold memberName
  refine look (gives_here c) ?_
  split
  · rename_i h
    exact passing_constant (isPlain_of_nameLike h) _
  · exact passing_expected _

section

variable {expression : Parse Expr} (hexpression : Phrasal expression)
include hexpression

theorem passing_accessor? : Passing (accessor? expression) c Sealed := by
  unfold accessor?
  refine look (gives_attached c) ?_
  split
  · refine seq (passing_acceptSymbol (by simp) (by simp)) fun _ _ => ?_
    split
    · exact passing_memberName.unfilled.map _
    · refine seq (passing_acceptSymbol (by simp) (by simp)) fun _ _ => ?_
      split
      · refine seq hexpression.unfilled fun _ _ => ?_
        exact seq (passing_consumeSymbol (by simp) (by simp) _).unfilled fun _ _ => .pure _
      · exact .pure _
  · exact .pure _

theorem passing_accessorsFrom (start : Token) (n : Nat) (base : Expr) :
    Passing (accessorsFrom expression start n base) c Sealed := by
  induction n generalizing c base with
  | zero => exact .pure base
  | succ n ih =>
    unfold accessorsFrom
    refine seq (passing_accessor? hexpression) fun _ c' => ?_
    split
    · exact .pure base
    · exact look (gives_spanFrom _ c') (ih _)

end

theorem isPlain_of_unaryOperator {t : Token} {op : UnaryOp} (h : unaryOperator? t = some op) : t.isPlain = true := by
  unfold unaryOperator? at h
  unfold isPlain
  split at h <;> simp_all

theorem isPlain_of_productOperator (t : Token) (op : BinaryOp) (h : productOperator? t = some op) :
    t.isPlain = true := by
  unfold productOperator? at h
  unfold isPlain
  split at h <;> simp_all

theorem isPlain_of_sumOperator (t : Token) (op : BinaryOp) (h : sumOperator? t = some op) : t.isPlain = true := by
  unfold sumOperator? at h
  unfold isPlain
  split at h <;> simp_all

theorem isPlain_of_comparisonOperator (t : Token) (op : BinaryOp) (h : comparisonOperator? t = some op) :
    t.isPlain = true := by
  unfold comparisonOperator? at h
  unfold isPlain
  split at h <;> simp_all

theorem isPlain_of_logicOperator {op : LogicOp} (t : Token) (op' : LogicOp) (h : logicOperator? op t = some op') :
    t.isPlain = true := by
  unfold logicOperator? at h
  simp only [Option.ite_none_right_eq_some] at h
  exact isPlain_of_keyword ((hasKeyword_iff t _).1 h.1)

section

variable {nested : Nested} (hnested : nested.Phrasal)
include hnested

theorem passing_accessed : Phrasal (accessed nested) := by
  intro c
  unfold accessed
  refine look (gives_here c) (first (passing_primary hnested) fun _ c' => look (gives_rounds c') ?_)
  exact passing_accessorsFrom hnested.expression _ _ _

theorem passing_unaryLevel : Phrasal (unaryLevel nested) := by
  intro c
  unfold unaryLevel
  refine look (gives_here c) ?_
  split
  · rename_i op hop
    refine first (passing_advance (isPlain_of_unaryOperator hop)) fun _ _ => seq hnested.unary.unfilled fun _ c' => ?_
    exact look (gives_spanFrom _ c') (.pure _)
  · exact passing_accessed hnested

theorem passing_orLevel : Phrasal (orLevel nested) :=
  passing_chain
    (passing_chain
      (passing_chain
        (passing_chain (passing_chain (passing_unaryLevel hnested) isPlain_of_productOperator _)
          isPlain_of_sumOperator _)
        isPlain_of_comparisonOperator _)
      isPlain_of_logicOperator _)
    isPlain_of_logicOperator _

end

/-- Expressions pass phrases, however deep they may be nested. -/
theorem phrasal_nested (n : Nat) : (nested n).Phrasal := by
  induction n with
  | zero => exact ⟨passing_expected _, passing_expected _⟩
  | succ n ih => exact ⟨passing_orLevel ih, passing_unaryLevel ih⟩

end Parse

end DeskScript
