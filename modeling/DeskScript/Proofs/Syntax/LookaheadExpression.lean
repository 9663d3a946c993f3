import DeskScript.Proofs.Syntax.AbreastExpression
import DeskScript.Proofs.Syntax.Lookahead
import DeskScript.Proofs.Token.Scan
import DeskScript.Syntax.Statement

set_option autoImplicit false

/-!
# How far the parser of an expression looks ahead

The parsers of expressions are joint at any fork: each of them looks at most at the token behind what it passes. So the
result of parsing one expression depends on the tokens up to the first one that is not part of it.
-/

namespace DeskScript

open Token

namespace Parse

open DeskScript.Expr Passing Fork

variable {α : Type} {F : Fork} {m : Nat} {c₁ c₂ : Cursor}

structure Twin (F : Fork) (m : Nat) (p q : Parse Expr) : Prop where
  phrasal : Phrasal p
  joint : ∀ {c₁ c₂}, F.Together c₁ c₂ → c₁.ahead < m → Joint F p q c₁ c₂

theorem Twin.onward {p q : Parse Expr} (h : Twin F m p q) : Onward p := ⟨h.phrasal.unfilled.sound⟩

theorem Twin.bind {p q : Parse Expr} {f g : Expr → Parse α} [∀ a, Onward (f a)] (hpq : Twin F m p q)
    (h : F.Together c₁ c₂) (hm : c₁.ahead < m)
    (hf : ∀ a c₁' c₂', F.Together c₁' c₂' → c₁'.ahead < c₁.ahead → Joint F (f a) (g a) c₁' c₂') :
    Joint F (p >>= f) (q >>= g) c₁ c₂ := by
  have := hpq.onward
  exact .through inferInstance h (hpq.joint h hm) fun a c₁' c₂' h' hrun =>
    hf a c₁' c₂' h' (hpq.phrasal.ahead_lt h.ends hrun)

section

variable {o₁ o₂ : Parse Expr} (ho : Twin F m o₁ o₂)
include ho

theorem joint_chainFrom {ω : Type} {operator? : Token → Option ω}
    (hoperator : ∀ t op, operator? t = some op → t.isPlain = true) (build : Span → ω → Expr → Expr → Expr)
    {start : Token} {n₁ n₂ : Nat} {left : Expr} (h : F.Together c₁ c₂) (hm : c₁.ahead < m) (hn₁ : c₁.ahead < n₁)
    (hn₂ : c₂.ahead < n₂) :
    Joint F (chainFrom o₁ operator? build start n₁ left) (chainFrom o₂ operator? build start n₂ left) c₁ c₂ := by
  have := ho.onward
  have (n : Nat) (left : Expr) : Onward (chainFrom o₁ operator? build start n left) :=
    ⟨(passing_chainFrom ho.phrasal hoperator build start n left).sound⟩
  refine .loop (fun {n₁ n₂ left c₁ c₂} h hm hagain => ?_) h hm hn₁ hn₂
  unfold chainFrom
  refine .step (gives_here c₁) (gives_here c₂) ?_
  rw [h.here]
  split
  · exact .pure left h
  · rename_i op hop
    have hinner := isFinish_of_plain (hoperator _ op hop)
    refine .step (gives_advance c₁) (gives_advance c₂) (.next h hinner fun h₁ hlt₁ => ?_)
    refine ho.bind h₁ (by omega) fun right c₁' c₂' h₂ hlt₂ => ?_
    refine .step (gives_spanFrom _ c₁') (gives_spanFrom _ c₂') ?_
    rw [h₂.spanFrom]
    exact hagain h₂ (by omega)

theorem twin_chain {ω : Type} {operator? : Token → Option ω}
    (hoperator : ∀ t op, operator? t = some op → t.isPlain = true) (build : Span → ω → Expr → Expr → Expr) :
    Twin F m (chain o₁ operator? build) (chain o₂ operator? build) := by
  have (start : Token) (n : Nat) (left : Expr) : Onward (chainFrom o₁ operator? build start n left) :=
    ⟨(passing_chainFrom ho.phrasal hoperator build start n left).sound⟩
  refine ⟨passing_chain ho.phrasal hoperator build, fun {c₁ c₂} h hm => ?_⟩
  unfold chain
  refine .step (gives_here c₁) (gives_here c₂) ?_
  rw [h.here]
  refine ho.bind h hm fun left c₁' c₂' h' hlt => ?_
  refine .step (gives_rounds c₁') (gives_rounds c₂') ?_
  exact joint_chainFrom ho hoperator build h' (by omega) (Nat.lt_succ_self _) (Nat.lt_succ_self _)

theorem joint_itemsFrom (close : Symbol) {n₁ n₂ : Nat} {done : List Expr} (h : F.Together c₁ c₂) (hm : c₁.ahead < m)
    (hn₁ : c₁.ahead < n₁) (hn₂ : c₂.ahead < n₂) :
    Joint F (itemsFrom o₁ close n₁ done) (itemsFrom o₂ close n₂ done) c₁ c₂ := by
  have := ho.onward
  have (n : Nat) (done : List Expr) : Onward (itemsFrom o₁ close n done) :=
    ⟨(passing_itemsFrom ho.phrasal close n done).sound⟩
  refine .loop (fun {n₁ n₂ done c₁ c₂} h hm hagain => ?_) h hm hn₁ hn₂
  unfold itemsFrom
  refine .accept isFinish_of_symbol h (fun h₁ hlt₁ => ?_) (.pure _ h)
  refine .at_ h₁ (fun _ => .pure _ h₁) fun _ => ?_
  exact ho.bind h₁ (by omega) fun item c₁' c₂' h₂ hlt₂ => hagain h₂ (by omega)

theorem joint_itemsUntil (close : Symbol) (what : String) (h : F.Together c₁ c₂) (hm : c₁.ahead < m) :
    Joint F (itemsUntil o₁ close what) (itemsUntil o₂ close what) c₁ c₂ := by
  have := ho.onward
  have (n : Nat) (done : List Expr) : Onward (itemsFrom o₁ close n done) :=
    ⟨(passing_itemsFrom ho.phrasal close n done).sound⟩
  have hclose (done : List Expr) {c₁ c₂ : Cursor} (h : F.Together c₁ c₂) :
      Joint F (do let _ ← consumeSymbol close what; return done) (do let _ ← consumeSymbol close what; return done)
        c₁ c₂ :=
    .consume isFinish_of_symbol h fun h' _ => .pure done h'
  unfold itemsUntil
  refine .at_ h (fun _ => ?_) fun _ => ?_
  · exact .step (gives_pure _ c₁) (gives_pure _ c₂) (hclose [] h)
  · refine ho.bind h hm fun item c₁' c₂' h' hlt => ?_
    refine .step (gives_rounds c₁') (gives_rounds c₂') ?_
    refine .bind h' (joint_itemsFrom ho close h' (by omega) (Nat.lt_succ_self _) (Nat.lt_succ_self _)) ?_
    exact fun done _ _ h'' _ => hclose done h''

theorem joint_parenArguments (h : F.Together c₁ c₂) (hm : c₁.ahead ≤ m) :
    Joint F (parenArguments o₁) (parenArguments o₂) c₁ c₂ := by
  have : Onward (itemsUntil o₁ .rightParen "')'") := ⟨(passing_itemsUntil ho.phrasal (by simp) (by simp) _).sound⟩
  unfold parenArguments
  refine .consume isFinish_of_symbol h fun h' hlt => ?_
  exact joint_itemsUntil ho _ _ h' (by omega)

theorem joint_arrayLiteral (hhere : c₂.here = c₁.here) (hnext : F.Together c₁.next c₂.next) (hm : c₁.next.ahead < m) :
    Joint F (arrayLiteral o₁) (arrayLiteral o₂) c₁ c₂ := by
  have : Onward (itemsUntil o₁ .rightBracket "']'") :=
    ⟨(passing_itemsUntil ho.phrasal (by simp) (by simp) _).sound⟩
  unfold arrayLiteral
  refine .step (gives_advance c₁) (gives_advance c₂) ?_
  rw [hhere]
  refine .bind hnext (joint_itemsUntil ho _ _ hnext hm) fun items c₁' c₂' h' _ => ?_
  exact .built _ _ h'

set_option synthInstance.maxSize 200 in
theorem joint_entriesFrom {n₁ n₂ : Nat} {done : List (String × Expr)} (h : F.Together c₁ c₂) (hm : c₁.ahead < m + 1)
    (hn₁ : c₁.ahead < n₁) (hn₂ : c₂.ahead < n₂) :
    Joint F (entriesFrom o₁ n₁ done) (entriesFrom o₂ n₂ done) c₁ c₂ := by
  have := ho.onward
  have (n : Nat) (done : List (String × Expr)) : Onward (entriesFrom o₁ n done) :=
    ⟨(passing_entriesFrom ho.phrasal n done).sound⟩
  refine .loop (fun {n₁ n₂ done c₁ c₂} h hm hagain => ?_) h hm hn₁ hn₂
  unfold entriesFrom
  refine .at_ h (fun _ => .pure _ h) fun _ => .step (gives_here c₁) (gives_here c₂) ?_
  rw [h.here]
  split
  · exact .of_error rfl
  · rename_i key hkey
    have hinner : c₁.here.isFinish = false :=
      Token.isFinish_eq_false fun hfinish => by simp [objectKey?, hfinish] at hkey
    refine .step (gives_advance c₁) (gives_advance c₂) (.next h hinner fun h₁ hlt₁ => ?_)
    refine .consume isFinish_of_symbol h₁ fun h₂ hlt₂ => ?_
    refine .bind h₂ (joint_skipNewlines h₂) fun _ _ _ h₃ hle₃ => ?_
    refine ho.bind h₃ (by omega) fun value _ _ h₄ hlt₄ => ?_
    refine .bind h₄ (joint_skipNewlines h₄) fun _ _ _ h₅ hle₅ => ?_
    refine .accept isFinish_of_symbol h₅ (fun h₆ hlt₆ => ?_) (.pure _ h₅)
    exact .bind h₆ (joint_skipNewlines h₆) fun _ _ _ h₇ hle₇ => hagain h₇ (by omega)

theorem joint_objectLiteral (hhere : c₂.here = c₁.here) (hnext : F.Together c₁.next c₂.next) (hm : c₁.next.ahead < m) :
    Joint F (objectLiteral o₁) (objectLiteral o₂) c₁ c₂ := by
  have (n : Nat) (done : List (String × Expr)) : Onward (entriesFrom o₁ n done) :=
    ⟨(passing_entriesFrom ho.phrasal n done).sound⟩
  unfold objectLiteral
  refine .step (gives_advance c₁) (gives_advance c₂) ?_
  rw [hhere]
  refine .bind hnext (joint_skipNewlines hnext) fun _ c₁' c₂' h₁ hle₁ => ?_
  refine .step (gives_rounds c₁') (gives_rounds c₂') ?_
  refine .bind h₁ (joint_entriesFrom ho h₁ (by omega) (Nat.lt_succ_self _) (Nat.lt_succ_self _)) ?_
  refine fun entries _ _ h₂ _ => .bind h₂ (joint_skipNewlines h₂) fun _ _ _ h₃ _ => ?_
  exact .consume isFinish_of_symbol h₃ fun h₄ _ => .built _ _ h₄

end

theorem joint_constant (value : Literal) (hhere : c₂.here = c₁.here) (hnext : F.Together c₁.next c₂.next) :
    Joint F (constant value) (constant value) c₁ c₂ := by
  refine .step (gives_advance c₁) (gives_advance c₂) ?_
  rw [hhere]
  exact .pure _ hnext

theorem joint_wordPartsFrom {n₁ n₂ : Nat} {text : String} (h : F.Together c₁ c₂) (hn₁ : c₁.ahead < n₁)
    (hn₂ : c₂.ahead < n₂) : Joint F (wordPartsFrom n₁ text) (wordPartsFrom n₂ text) c₁ c₂ := by
  refine .loop (fun {n₁ n₂ text c₁ c₂} h hm hagain => ?_) h (Nat.lt_succ_self _) hn₁ hn₂
  unfold wordPartsFrom
  refine .step (gives_at _ c₁) (gives_at _ c₂) (.step (gives_attached c₁) (gives_attached c₂) ?_)
  rw [h.here, h.previous]
  split
  · rename_i hpart
    have hinner := isFinish_of_plain (isPlain_of_wordPart (Bool.and_eq_true_iff.1 hpart).1)
    refine .step (gives_advance c₁) (gives_advance c₂) (.next h hinner fun hnext hlt => ?_)
    rw [h.here]
    exact hagain hnext hlt
  · exact .pure _ h

theorem joint_gluedWord (hhere : c₂.here = c₁.here) (hnext : F.Together c₁.next c₂.next) :
    Joint F gluedWord gluedWord c₁ c₂ := by
  unfold gluedWord
  refine .step (gives_advance c₁) (gives_advance c₂) (.step (gives_rounds c₁.next) (gives_rounds c₂.next) ?_)
  rw [hhere]
  refine .bind hnext (joint_wordPartsFrom hnext (Nat.lt_succ_self _) (Nat.lt_succ_self _)) fun text c₁' c₂' h' _ => ?_
  exact .built _ _ h'

theorem twin_word {o₁ o₂ : Parse Expr} (ho : Twin F m o₁ o₂) (what : String) :
    Twin F m (word o₁ what) (word o₂ what) := by
  refine ⟨passing_word ho.phrasal what, fun {c₁ c₂} h hm => ?_⟩
  have hglued : isWordPart c₁.here = true → Joint F gluedWord gluedWord c₁ c₂ := fun hpart =>
    have hplain := isPlain_of_wordPart hpart
    .inner h (isFinish_of_plain hplain) (passing_gluedWord hplain) fun hnext _ _ => joint_gluedWord h.here hnext
  unfold word
  refine .step (gives_here c₁) (gives_here c₂) ?_
  rw [h.here]
  split
  · exact ho.joint h hm
  · exact ho.joint h hm
  · exact ho.joint h hm
  · exact ho.joint h hm
  · split
    · exact hglued ‹_›
    · exact .of_error rfl

structure Nested.Twin (F : Fork) (m : Nat) (nested₁ nested₂ : Nested) : Prop where
  expression : Parse.Twin F m nested₁.expression nested₂.expression
  unary : Parse.Twin F m nested₁.unary nested₂.unary

theorem Nested.Twin.phrasal {nested₁ nested₂ : Nested} (h : Nested.Twin F m nested₁ nested₂) : nested₁.Phrasal :=
  ⟨h.expression.phrasal, h.unary.phrasal⟩

theorem gives_atBareWord_together (h : F.Together c₁ c₂) (hfollowing : c₂.following = c₁.following) :
    ∃ b, Gives atBareWord c₁ b c₁ ∧ Gives atBareWord c₂ b c₂ := by
  refine ⟨_, rfl, ?_⟩
  rw [← h.here, ← hfollowing]
  rfl

section

variable {nested₁ nested₂ : Nested} (hn : Nested.Twin F m nested₁ nested₂)
include hn

/-- The token behind a name is looked at only if the name is read as an argument, and so passed. -/
theorem joint_spacedFrom {n₁ n₂ : Nat} {done : List Expr} (h : F.Together c₁ c₂) (hm : c₁.ahead < m)
    (hn₁ : c₁.ahead < n₁) (hn₂ : c₂.ahead < n₂) :
    Joint F (spacedFrom nested₁ n₁ done) (spacedFrom nested₂ n₂ done) c₁ c₂ := by
  have hwords := twin_word hn.expression "argument"
  have := hwords.onward
  have := hn.unary.onward
  have (n : Nat) (done : List Expr) : Onward (spacedFrom nested₁ n done) :=
    ⟨(passing_spacedFrom hn.phrasal n done).sound⟩
  refine .loop (fun {n₁ n₂ done c₁ c₂} h hm hagain => ?_) h hm hn₁ hn₂
  have hargument {p q : Parse Expr} (hp : Parse.Twin F m p q) : Joint F
      (p >>= fun argument => spacedFrom nested₁ n₁ (argument :: done))
      (q >>= fun argument => spacedFrom nested₂ n₂ (argument :: done)) c₁ c₂ :=
    hp.bind h hm fun argument _ _ h' hlt => hagain h' hlt
  unfold spacedFrom
  refine .at_ h (fun hbegins => ?_) fun _ => .pure _ h
  have hinner : c₁.here.isFinish = false :=
    Token.isFinish_eq_false fun hfinish => by simp [beginsArgument, hfinish] at hbegins
  refine .inner (P := Sealed) h hinner ?_ fun _ _ hfollowing => ?_
  · obtain ⟨b, hb, -⟩ := gives_atBareWord c₁
    refine look hb ?_
    split
    · exact first hwords.phrasal fun _ _ => passing_spacedFrom hn.phrasal _ _
    · exact first hn.unary.phrasal fun _ _ => passing_spacedFrom hn.phrasal _ _
  · obtain ⟨b, hb₁, hb₂⟩ := gives_atBareWord_together h hfollowing
    refine .step hb₁ hb₂ ?_
    split
    · exact hargument hwords
    · exact hargument hn.unary

theorem joint_spacedArguments (h : F.Together c₁ c₂) (hm : c₁.ahead < m) :
    Joint F (spacedArguments nested₁) (spacedArguments nested₂) c₁ c₂ :=
  .step (gives_rounds c₁) (gives_rounds c₂) (joint_spacedFrom hn h hm (Nat.lt_succ_self _) (Nat.lt_succ_self _))

theorem joint_namedCall (hhere : c₂.here = c₁.here) (hnext : F.Together c₁.next c₂.next) (hm : c₁.next.ahead ≤ m) :
    Joint F (namedCall nested₁) (namedCall nested₂) c₁ c₂ := by
  have : Onward (parenArguments nested₁.expression) := ⟨(passing_parenArguments hn.phrasal.expression).sound⟩
  unfold namedCall
  refine .step (gives_advance c₁) (gives_advance c₂) ?_
  rw [hhere]
  refine .bind hnext (joint_parenArguments hn.expression hnext hm) fun arguments c₁' c₂' h' _ => ?_
  exact .built _ _ h'

theorem joint_callCommand (hhere : c₂.here = c₁.here) (hnext : F.Together c₁.next c₂.next) (hm : c₁.next.ahead < m) :
    Joint F (callCommand nested₁) (callCommand nested₂) c₁ c₂ := by
  have : Onward (parenArguments nested₁.expression) := ⟨(passing_parenArguments hn.phrasal.expression).sound⟩
  have : Onward (spacedArguments nested₁) := ⟨(passing_spacedArguments hn.phrasal).sound⟩
  unfold callCommand
  refine .step (gives_advance c₁) (gives_advance c₂) (.step (gives_here c₁.next) (gives_here c₂.next) ?_)
  rw [hhere, hnext.here]
  split
  · rename_i hname
    have hinner := isFinish_of_plain (isPlain_of_nameLike hname)
    refine .step (gives_advance c₁.next) (gives_advance c₂.next) (.next hnext hinner fun h₁ hlt₁ => ?_)
    refine .step (gives_here c₁.next.next) (gives_here c₂.next.next) ?_
    rw [h₁.here]
    split
    · refine .bind h₁ (joint_parenArguments hn.expression h₁ (by omega)) fun arguments c₁' c₂' h₂ _ => ?_
      exact .built _ _ h₂
    · refine .bind h₁ (joint_spacedArguments hn h₁ (by omega)) fun arguments c₁' c₂' h₂ _ => ?_
      exact .built _ _ h₂
  · exact .of_error rfl

/-- Whether a bracket is attached to a word matters only where both are passed or the word is. -/
theorem joint_primary (h : F.Together c₁ c₂) (hm : c₁.ahead ≤ m) :
    Joint F (primary nested₁) (primary nested₂) c₁ c₂ := by
  cases hinner : c₁.here.isFinish with
  | true =>
    have hfinish := (isFinish_iff c₁.here).1 hinner
    refine .of_error (e := ⟨c₁.complaint "expression", c₁.here.span⟩) ?_
    unfold primary
    rw [run_bind_gives (gives_here c₁), run_bind_gives (gives_get c₁)]
    simp only [hfinish]
    rfl
  | false =>
    refine .inner h hinner (passing_primary hn.phrasal) fun hnext hlt hfollowing => ?_
    have hcall := joint_namedCall hn h.here hnext (by omega)
    unfold primary
    refine .step (gives_here c₁) (gives_here c₂) (.step (gives_get c₁) (gives_get c₂) ?_)
    dsimp only
    rw [hfollowing, h.here]
    split
    · exact joint_constant _ h.here hnext
    · exact joint_constant _ h.here hnext
    · exact .step (gives_advance c₁) (gives_advance c₂) (.pure _ hnext)
    · exact joint_constant _ h.here hnext
    · exact joint_constant _ h.here hnext
    · exact joint_constant _ h.here hnext
    · exact .step (gives_advance c₁) (gives_advance c₂) (.pure _ hnext)
    · refine .step (gives_advance c₁) (gives_advance c₂) ?_
      refine hn.expression.bind hnext (by omega) fun inner c₁' c₂' h' _ => ?_
      exact .consume isFinish_of_symbol h' fun h'' _ => .pure inner h''
    · exact joint_arrayLiteral hn.expression h.here hnext (by omega)
    · exact joint_objectLiteral hn.expression h.here hnext (by omega)
    · exact joint_callCommand hn h.here hnext (by omega)
    · split
      · exact hcall
      · exact joint_constant _ h.here hnext
    · split
      · exact hcall
      · exact .of_error rfl
    · exact .of_error rfl

end

theorem joint_memberName (h : F.Together c₁ c₂) : Joint F memberName memberName c₁ c₂ := by
  unfold memberName
  refine .step (gives_here c₁) (gives_here c₂) ?_
  rw [h.here]
  split
  · rename_i hname
    have hplain := isPlain_of_nameLike hname
    exact .inner h (isFinish_of_plain hplain) (passing_constant hplain _) fun hnext _ _ => joint_constant _ h.here hnext
  · exact .of_error rfl

section

variable {o₁ o₂ : Parse Expr} (ho : Twin F m o₁ o₂)
include ho

/-- Behind an accessor fewer tokens are ahead, so `m` of them may be ahead in front of it. -/
theorem joint_accessor? (h : F.Together c₁ c₂) (hm : c₁.ahead ≤ m) :
    Joint F (accessor? o₁) (accessor? o₂) c₁ c₂ := by
  have := ho.onward
  have : Onward memberName := ⟨passing_memberName.unfilled.sound⟩
  unfold accessor?
  refine .step (gives_attached c₁) (gives_attached c₂) ?_
  rw [h.here, h.previous]
  split
  · refine .accept isFinish_of_symbol h (fun hnext _ => .map hnext (joint_memberName hnext) some) ?_
    refine .accept isFinish_of_symbol h (fun hnext hlt => ?_) (.pure none h)
    refine ho.bind hnext (by omega) fun key _ _ h' _ => ?_
    exact .consume isFinish_of_symbol h' fun h'' _ => .pure (some key) h''
  · exact .pure none h

theorem joint_accessorsFrom {start : Token} {n₁ n₂ : Nat} {base : Expr} (h : F.Together c₁ c₂) (hm : c₁.ahead < m + 1)
    (hn₁ : c₁.ahead < n₁) (hn₂ : c₂.ahead < n₂) :
    Joint F (accessorsFrom o₁ start n₁ base) (accessorsFrom o₂ start n₂ base) c₁ c₂ := by
  have : Onward (accessor? o₁) := ⟨(passing_accessor? ho.phrasal).sound⟩
  have (n : Nat) (base : Expr) : Onward (accessorsFrom o₁ start n base) :=
    ⟨(passing_accessorsFrom ho.phrasal start n base).sound⟩
  refine .loop (fun {n₁ n₂ base c₁ c₂} h hm hagain => ?_) h hm hn₁ hn₂
  unfold accessorsFrom
  refine .through (fun key => ?_) h (joint_accessor? ho h (by omega)) fun key c₁' c₂' h' hrun => ?_
  · cases key <;> infer_instance
  · cases key with
    | none => exact .pure base h'
    | some key =>
      refine .step (gives_spanFrom _ c₁') (gives_spanFrom _ c₂') ?_
      rw [h'.spanFrom]
      exact hagain h' (accessor?_ahead ho.phrasal h.ends hrun)

end

section

variable {nested₁ nested₂ : Nested} (hn : Nested.Twin F m nested₁ nested₂)
include hn

theorem twin_accessed : Parse.Twin F (m + 1) (accessed nested₁) (accessed nested₂) := by
  refine ⟨passing_accessed hn.phrasal, fun {c₁ c₂} h hm => ?_⟩
  have : Onward (primary nested₁) := ⟨(passing_primary hn.phrasal).unfilled.sound⟩
  have (start : Token) (n : Nat) (base : Expr) : Onward (accessorsFrom nested₁.expression start n base) :=
    ⟨(passing_accessorsFrom hn.expression.phrasal start n base).sound⟩
  unfold accessed
  refine .step (gives_here c₁) (gives_here c₂) ?_
  rw [h.here]
  refine .bind h (joint_primary hn h (by omega)) fun base c₁' c₂' h' hle => ?_
  refine .step (gives_rounds c₁') (gives_rounds c₂') ?_
  exact joint_accessorsFrom hn.expression h' (by omega) (Nat.lt_succ_self _) (Nat.lt_succ_self _)

theorem twin_unaryLevel : Parse.Twin F (m + 1) (unaryLevel nested₁) (unaryLevel nested₂) := by
  refine ⟨passing_unaryLevel hn.phrasal, fun {c₁ c₂} h hm => ?_⟩
  have := hn.unary.onward
  unfold unaryLevel
  refine .step (gives_here c₁) (gives_here c₂) ?_
  rw [h.here]
  split
  · rename_i op hop
    have hinner := isFinish_of_plain (isPlain_of_unaryOperator hop)
    refine .step (gives_advance c₁) (gives_advance c₂) (.next h hinner fun hnext hlt => ?_)
    refine hn.unary.bind hnext (by omega) fun operand c₁' c₂' h' _ => ?_
    exact .built _ _ h'
  · exact (twin_accessed hn).joint h hm

theorem twin_orLevel : Parse.Twin F (m + 1) (orLevel nested₁) (orLevel nested₂) := by
  have hproducts := twin_chain (twin_unaryLevel hn) isPlain_of_productOperator .binary
  have hcomparisons := twin_chain (twin_chain hproducts isPlain_of_sumOperator .binary) isPlain_of_comparisonOperator
    .binary
  exact twin_chain (twin_chain hcomparisons isPlain_of_logicOperator .logic) isPlain_of_logicOperator .logic

end

theorem twin_of_le {p q : Parse Expr} (hp : Phrasal p) (hm : m ≤ F.more₁.length) : Twin F m p q := by
  refine ⟨hp, fun h hlt => ?_⟩
  have hwithin := h.within
  omega

/-- Expressions are joint if they may be nested as deep as there are tokens ahead. -/
theorem twin_nested {n₁ n₂ : Nat} (h₁ : m ≤ n₁) (h₂ : m + F.more₂.length ≤ n₂ + F.more₁.length) :
    Nested.Twin F m (nested n₁) (nested n₂) := by
  induction m generalizing n₁ n₂ with
  | zero => exact ⟨twin_of_le (phrasal_nested n₁).expression (by omega), twin_of_le (phrasal_nested n₁).unary (by omega)⟩
  | succ m ih =>
    rcases Nat.lt_or_ge m F.more₁.length with hm | hm
    · exact ⟨twin_of_le (phrasal_nested n₁).expression hm, twin_of_le (phrasal_nested n₁).unary hm⟩
    · obtain ⟨n₁, rfl⟩ : ∃ j, n₁ = j + 1 := ⟨n₁ - 1, by omega⟩
      obtain ⟨n₂, rfl⟩ : ∃ j, n₂ = j + 1 := ⟨n₂ - 1, by omega⟩
      have hn : Nested.Twin F m (nested n₁) (nested n₂) := ih (by omega) (by omega)
      exact ⟨twin_orLevel hn, twin_unaryLevel hn⟩

end Parse

section

open Parse

variable {t : Token} {ts more₁ : List Token} {source : Option String} {e : Expr}

/-- An expression that ends on a shared token is read on both sides, and its end has the index of its token. -/
theorem expression_follows (hends : ∃ us u, t :: (ts ++ more₁) = us ++ [u] ∧ u.isFinish = true) {c : Cursor}
    (hrun : (nested ((t :: (ts ++ more₁)).length + 1)).expression.run (.ofTokens source (t :: (ts ++ more₁))) =
      .ok (e, c)) (hle : more₁.length ≤ c.ahead) (more₂ : List Token) (source' : Option String) :
    c.index + c.ahead = (ts ++ more₁).length ∧
      ∃ c', (nested ((t :: (ts ++ more₂)).length + 1)).expression.run (.ofTokens source' (t :: (ts ++ more₂))) =
        .ok (e, c') ∧ c'.index = c.index := by
  have htogether : Fork.Together ⟨(ts ++ more₁).length, more₁, more₂⟩ (.ofTokens source (t :: (ts ++ more₁)))
      (.ofTokens source' (t :: (ts ++ more₂))) :=
    ⟨rfl, rfl, rfl, ⟨ts, rfl, rfl⟩, hends, Nat.zero_add _⟩
  have htwin : Nested.Twin ⟨(ts ++ more₁).length, more₁, more₂⟩ ((ts ++ more₁).length + 1)
      (nested ((t :: (ts ++ more₁)).length + 1)) (nested ((t :: (ts ++ more₂)).length + 1)) := by
    refine twin_nested ?_ ?_ <;> simp only [List.length_cons, List.length_append] <;> omega
  obtain ⟨c', hrun', htogether'⟩ := (htwin.expression.joint htogether (Nat.lt_succ_self _)).follows hrun hle
  exact ⟨htogether'.place, c', hrun', htogether'.index⟩

/-- Parsing an expression looks at no token beyond the first one behind it: any list that agrees with the parsed one up
to that token gives the same expression and the same index, whatever comes later and whatever the source. -/
theorem parseExpression_of_take_eq {tokens tokens' : List Token} {source' : Option String} {n : Nat}
    (hends : ∃ ts t, tokens = ts ++ [t] ∧ t.isFinish = true) (hparse : parseExpression tokens source = .ok (e, n))
    (hsame : tokens'.take (n + 1) = tokens.take (n + 1)) : parseExpression tokens' source' = .ok (e, n) := by
  obtain ⟨t, rest, rfl⟩ : ∃ t rest, tokens = t :: rest := by
    obtain ⟨ts, u, rfl, -⟩ := hends
    cases ts <;> exact ⟨_, _, rfl⟩
  obtain ⟨rest', rfl, hrest⟩ : ∃ rest', tokens' = t :: rest' ∧ rest'.take n = rest.take n := by
    cases tokens' with
    | nil => simp at hsame
    | cons u rest' =>
      obtain ⟨rfl, hrest⟩ := List.cons.inj hsame
      exact ⟨rest', rfl, hrest⟩
  unfold parseExpression at hparse ⊢
  cases hrun : (nested ((t :: rest).length + 1)).expression.run (.ofTokens source (t :: rest)) with
  | error trouble =>
    rw [hrun] at hparse
    contradiction
  | ok found =>
    obtain ⟨e', c⟩ := found
    rw [hrun] at hparse
    cases hparse
    -- Shared with itself the list relates the index to the tokens ahead, and so tells where to cut it.
    have hplace : c.index + c.ahead = rest.length := by
      rw [← List.append_nil rest] at hends hrun ⊢
      exact (expression_follows hends hrun (Nat.zero_le _) [] source).1
    have hcut : (rest.drop c.index).length ≤ c.ahead := by
      rw [List.length_drop]
      omega
    rw [← List.take_append_drop c.index rest] at hends hrun
    obtain ⟨-, c', hrun', hindex⟩ := expression_follows hends hrun hcut (rest'.drop c.index) source'
    rw [← hrest, List.take_append_drop] at hrun'
    rw [hrun', ← hindex]

end

def spacedBracket : List Token :=
  [⟨.var "a", "$a", ⟨⟨1, 1, 0⟩, ⟨1, 3, 2⟩, none⟩⟩, ⟨.symbol .dot, ".", ⟨⟨1, 3, 2⟩, ⟨1, 4, 3⟩, none⟩⟩,
    ⟨.word, "b", ⟨⟨1, 4, 3⟩, ⟨1, 5, 4⟩, none⟩⟩, ⟨.symbol .leftBracket, "[", ⟨⟨1, 6, 5⟩, ⟨1, 7, 6⟩, none⟩⟩]

/-- A bracket with a blank in front of it is no accessor, whether it is closed or not. -/
theorem parseExpression_spacedBracket :
    parseExpression (spacedBracket ++ [⟨.symbol .rightBracket, "]", default⟩, ⟨.finish, "", default⟩]) none =
      .ok (.property ⟨⟨1, 1, 0⟩, ⟨1, 5, 4⟩, none⟩ (.var ⟨⟨1, 1, 0⟩, ⟨1, 3, 2⟩, none⟩ "a")
        (.literal ⟨⟨1, 4, 3⟩, ⟨1, 5, 4⟩, none⟩ (.text "b")), 3) :=
  have halone : parseExpression (spacedBracket ++ [⟨.finish, "", default⟩]) none =
      .ok (.property ⟨⟨1, 1, 0⟩, ⟨1, 5, 4⟩, none⟩ (.var ⟨⟨1, 1, 0⟩, ⟨1, 3, 2⟩, none⟩ "a")
        (.literal ⟨⟨1, 4, 3⟩, ⟨1, 5, 4⟩, none⟩ (.text "b")), 3) := rfl
  parseExpression_of_take_eq ⟨spacedBracket, _, rfl, rfl⟩ halone rfl

end DeskScript
