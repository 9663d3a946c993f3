import DeskScript.Proofs.Syntax.Forward

set_option autoImplicit false

/-!
# Parsers of expressions move forward

A parser of expressions looks, passes tokens and calls the parsers for the levels nested in it. It calls them only behind
a token that it has passed, and if it succeeds, it has passed one. Main statements: `Parse.strides_orLevel`,
`Parse.strides_unaryLevel`.
-/

namespace DeskScript

namespace Parse

open Cursor

variable {Call : (α : Type) → Parse α → Parse α → Prop} {p q : Parse Expr} {n₁ n₂ : Nested}

instance {ω : Type} [Along Call p q] (operator? : Token → Option ω) (build : Span → ω → Expr → Expr → Expr)
    (start : Token) (n : Nat) (left : Expr) :
    Along Call (chainFrom p operator? build start n left) (chainFrom q operator? build start n left) := by
  induction n generalizing left with
  | zero => exact inferInstanceAs (Along Call (pure left) (pure left))
  | succ n ih =>
    unfold chainFrom
    refine .bind inferInstance fun t => ?_
    cases operator? t with
    | none => exact inferInstance
    | some op => exact inferInstance

instance {ω : Type} [Along Call p q] (operator? : Token → Option ω) (build : Span → ω → Expr → Expr → Expr) :
    Along Call (chain p operator? build) (chain q operator? build) := by
  unfold chain
  infer_instance

instance [Along Call p q] (close : Symbol) (n : Nat) (done : List Expr) :
    Along Call (itemsFrom p close n done) (itemsFrom q close n done) := by
  induction n generalizing done with
  | zero => exact inferInstanceAs (Along Call (pure _) (pure _))
  | succ n ih =>
    unfold itemsFrom
    infer_instance

instance [Along Call p q] (close : Symbol) (what : String) :
    Along Call (itemsUntil p close what) (itemsUntil q close what) := by
  unfold itemsUntil
  infer_instance

instance [Along Call p q] : Along Call (parenArguments p) (parenArguments q) := by
  unfold parenArguments
  infer_instance

instance [Along Call p q] : Along Call (arrayLiteral p) (arrayLiteral q) := by
  unfold arrayLiteral
  infer_instance

instance [Along Call p q] (n : Nat) (done : List (String × Expr)) :
    Along Call (entriesFrom p n done) (entriesFrom q n done) := by
  induction n generalizing done with
  | zero => exact inferInstanceAs (Along Call (pure _) (pure _))
  | succ n ih =>
    unfold entriesFrom
    refine .bind inferInstance fun b => ?_
    split
    · exact inferInstance
    · refine .bind inferInstance fun t => ?_
      cases objectKey? t with
      | none => exact inferInstance
      | some key =>
        dsimp only
        refine .bind inferInstance fun _ => .bind inferInstance fun _ => .bind inferInstance fun _ => ?_
        infer_instance

instance [Along Call p q] : Along Call (objectLiteral p) (objectLiteral q) := by
  unfold objectLiteral
  exact .bind inferInstance fun _ => .bind inferInstance fun _ => inferInstance

instance (n : Nat) (text : String) : Along Call (wordPartsFrom n text) (wordPartsFrom n text) := by
  induction n generalizing text with
  | zero => exact inferInstanceAs (Along Call (pure _) (pure _))
  | succ n ih =>
    unfold wordPartsFrom
    infer_instance

instance : Along Call gluedWord gluedWord := by
  unfold gluedWord
  infer_instance

instance [Along Call p q] (what : String) : Along Call (word p what) (word q what) := by
  unfold word
  refine .bind inferInstance fun t => ?_
  split
  · assumption
  · assumption
  · assumption
  · assumption
  · infer_instance

instance : Along Call atBareWord atBareWord := by
  unfold atBareWord
  exact along_get (fun _ => rfl) (fun _ => rfl) fun _ => inferInstance

section

variable [Along Call n₁.expression n₂.expression] [Along Call n₁.unary n₂.unary]

instance (n : Nat) (done : List Expr) : Along Call (spacedFrom n₁ n done) (spacedFrom n₂ n done) := by
  induction n generalizing done with
  | zero => exact inferInstanceAs (Along Call (pure _) (pure _))
  | succ n ih =>
    unfold spacedFrom
    infer_instance

instance : Along Call (spacedArguments n₁) (spacedArguments n₂) := by
  unfold spacedArguments
  infer_instance

instance : Along Call (callCommand n₁) (callCommand n₂) := by
  unfold callCommand
  infer_instance

instance : Along Call (namedCall n₁) (namedCall n₂) := by
  unfold namedCall
  infer_instance

instance (value : Literal) : Along Call (constant value) (constant value) := by
  unfold constant
  infer_instance

instance : Along Call (primary n₁) (primary n₂) := by
  unfold primary
  refine .bind inferInstance fun t => along_get (fun _ => rfl) (fun _ => rfl) fun c => ?_
  dsimp only
  split <;> infer_instance

end

instance : Along Call memberName memberName := by
  unfold memberName
  infer_instance

instance [Along Call p q] : Along Call (accessor? p) (accessor? q) := by
  unfold accessor?
  infer_instance

instance [Along Call p q] (start : Token) (n : Nat) (base : Expr) :
    Along Call (accessorsFrom p start n base) (accessorsFrom q start n base) := by
  induction n generalizing base with
  | zero => exact inferInstanceAs (Along Call (pure _) (pure _))
  | succ n ih =>
    unfold accessorsFrom
    refine .bind inferInstance fun key => ?_
    cases key with
    | none => exact inferInstance
    | some key => exact inferInstance

section

variable [Along Call n₁.expression n₂.expression] [Along Call n₁.unary n₂.unary]

instance : Along Call (accessed n₁) (accessed n₂) := by
  unfold accessed
  infer_instance

instance : Along Call (unaryLevel n₁) (unaryLevel n₂) := by
  unfold unaryLevel
  refine .bind inferInstance fun t => ?_
  cases unaryOperator? t with
  | none => exact inferInstance
  | some op => exact inferInstance

instance : Along Call (productLevel n₁) (productLevel n₂) := by
  unfold productLevel
  infer_instance

instance : Along Call (sumLevel n₁) (sumLevel n₂) := by
  unfold sumLevel
  infer_instance

instance : Along Call (comparisonLevel n₁) (comparisonLevel n₂) := by
  unfold comparisonLevel
  infer_instance

instance : Along Call (andLevel n₁) (andLevel n₂) := by
  unfold andLevel
  infer_instance

instance : Along Call (orLevel n₁) (orLevel n₂) := by
  unfold orLevel
  infer_instance

end

section

variable {c : Cursor} (hc : c.Ends)
include hc

theorem strides_constant (value : Literal) (hinner : c.here.isFinish = false) :
    Strides (constant value) (constant value) c := by
  unfold constant
  exact .passing hc hinner fun _ => inferInstance

theorem strides_gluedWord (hinner : c.here.isFinish = false) : Strides gluedWord gluedWord c := by
  unfold gluedWord
  exact .passing hc hinner fun _ => inferInstance

theorem strides_word (hp : Strides p q c) (what : String) : Strides (word p what) (word q what) c := by
  unfold word
  refine .look (gives_here c) ?_
  split
  · exact hp
  · exact hp
  · exact hp
  · exact hp
  · split
    · rename_i hword
      exact strides_gluedWord hc (Token.isFinish_of_plain (isPlain_of_wordPart hword))
    · exact .expected what

variable [Along (Agree c) n₁.expression n₂.expression]

theorem strides_namedCall (hinner : c.here.isFinish = false) : Strides (namedCall n₁) (namedCall n₂) c := by
  unfold namedCall
  exact .passing hc hinner fun _ => inferInstance

variable [Along (Agree c) n₁.unary n₂.unary]

theorem strides_primary : Strides (primary n₁) (primary n₂) c := by
  unfold primary
  refine .look (gives_here c) (.look (gives_get c) ?_)
  dsimp only
  split <;> rename_i hhere
  all_goals try have hinner : c.here.isFinish = false := by simp [Token.isFinish, hhere]
  · exact strides_constant hc _ hinner
  · exact strides_constant hc _ hinner
  · exact .passing hc hinner fun _ => inferInstance
  · exact strides_constant hc _ hinner
  · exact strides_constant hc _ hinner
  · exact strides_constant hc _ hinner
  · exact .passing hc hinner fun _ => inferInstance
  · exact .passing hc hinner fun _ => inferInstance
  · unfold arrayLiteral
    exact .passing hc hinner fun _ => inferInstance
  · unfold objectLiteral
    exact .passing hc hinner fun _ => inferInstance
  · unfold callCommand
    exact .passing hc hinner fun _ => inferInstance
  · split
    · exact strides_namedCall hc hinner
    · exact strides_constant hc _ hinner
  · split
    · exact strides_namedCall hc hinner
    · exact .expected _
  · exact .expected _

theorem strides_accessed : Strides (accessed n₁) (accessed n₂) c := by
  unfold accessed
  exact .look (gives_here c) ((strides_primary hc).go fun _ => inferInstance)

theorem strides_unaryLevel : Strides (unaryLevel n₁) (unaryLevel n₂) c := by
  unfold unaryLevel
  refine .look (gives_here c) ?_
  split
  · rename_i op hop
    exact .passing hc (Token.isFinish_of_plain (isPlain_of_unaryOperator hop)) fun _ => inferInstance
  · exact strides_accessed hc

omit hc in
theorem strides_chain {ω : Type} [Along (Agree c) p q] (hp : Strides p q c) (operator? : Token → Option ω)
    (build : Span → ω → Expr → Expr → Expr) : Strides (chain p operator? build) (chain q operator? build) c := by
  unfold chain
  exact .look (gives_here c) (hp.go fun _ => inferInstance)

/-- Behind the first token of an expression the parsers nested in it are called, and not before. -/
theorem strides_orLevel : Strides (orLevel n₁) (orLevel n₂) c := by
  unfold orLevel andLevel comparisonLevel sumLevel productLevel
  have hunary : Strides (unaryLevel n₁) (unaryLevel n₂) c := strides_unaryLevel hc
  exact strides_chain (strides_chain (strides_chain (strides_chain (strides_chain hunary _ _) _ _) _ _) _ _) _ _

end

end Parse

end DeskScript
