import DeskScript.Proofs.Syntax.Phrase

set_option autoImplicit false

/-!
# Trees that differ in places only

Two trees are the same if they are equal once every span in them is forgotten. What is built from the same parts is the
same.
-/

namespace DeskScript

namespace Expr

theorem unplacedAll_eq_map (es : List Expr) : unplacedAll es = es.map unplaced := by
  induction es with
  | nil => rfl
  | cons e es ih => rw [unplacedAll, ih, List.map_cons]

theorem unplacedEntries_eq_map (es : List (String × Expr)) :
    unplacedEntries es = es.map fun e => (e.1, e.2.unplaced) := by
  induction es with
  | nil => rfl
  | cons e es ih => rw [unplacedEntries, ih, List.map_cons]

def Same (e₁ e₂ : Expr) : Prop := e₁.unplaced = e₂.unplaced

def SameAll (es₁ es₂ : List Expr) : Prop := es₁.map unplaced = es₂.map unplaced

def SameEntries (es₁ es₂ : List (String × Expr)) : Prop :=
  es₁.map (fun e => (e.1, e.2.unplaced)) = es₂.map fun e => (e.1, e.2.unplaced)

def SameOption (o₁ o₂ : Option Expr) : Prop := o₁.map unplaced = o₂.map unplaced

variable {e₁ e₂ : Expr} {es₁ es₂ : List Expr} {ps₁ ps₂ : List (String × Expr)}

theorem Same.some (h : Same e₁ e₂) : SameOption (some e₁) (some e₂) := congrArg Option.some h

theorem SameAll.cons (h : Same e₁ e₂) (hs : SameAll es₁ es₂) : SameAll (e₁ :: es₁) (e₂ :: es₂) := by
  unfold SameAll
  rw [List.map_cons, List.map_cons, h, hs]

theorem SameAll.reverse (hs : SameAll es₁ es₂) : SameAll es₁.reverse es₂.reverse := by
  unfold SameAll
  rw [List.map_reverse, List.map_reverse, hs]

theorem SameEntries.cons (key : String) (h : Same e₁ e₂) (hs : SameEntries ps₁ ps₂) :
    SameEntries ((key, e₁) :: ps₁) ((key, e₂) :: ps₂) := by
  unfold SameEntries
  rw [List.map_cons, List.map_cons, h, hs]

theorem SameEntries.reverse (hs : SameEntries ps₁ ps₂) : SameEntries ps₁.reverse ps₂.reverse := by
  unfold SameEntries
  rw [List.map_reverse, List.map_reverse, hs]

theorem same_array (s₁ s₂ : Span) (h : SameAll es₁ es₂) : Same (.array s₁ es₁) (.array s₂ es₂) := by
  simp only [Same, unplaced, unplacedAll_eq_map]
  rw [h]

theorem same_call (s₁ s₂ : Span) (name : String) (h : SameAll es₁ es₂) :
    Same (.call s₁ name es₁) (.call s₂ name es₂) := by
  simp only [Same, unplaced, unplacedAll_eq_map]
  rw [h]

theorem same_object (s₁ s₂ : Span) (h : SameEntries ps₁ ps₂) : Same (.object s₁ ps₁) (.object s₂ ps₂) := by
  simp only [Same, unplaced, unplacedEntries_eq_map]
  rw [h]

theorem same_property (s₁ s₂ : Span) {k₁ k₂ : Expr} (h : Same e₁ e₂) (hk : Same k₁ k₂) :
    Same (.property s₁ e₁ k₁) (.property s₂ e₂ k₂) := by
  simp only [Same, unplaced]
  rw [h, hk]

theorem same_unary (s₁ s₂ : Span) (op : UnaryOp) (h : Same e₁ e₂) : Same (.unary s₁ op e₁) (.unary s₂ op e₂) := by
  simp only [Same, unplaced]
  rw [h]

theorem same_binary (s₁ s₂ : Span) (op : BinaryOp) {l₁ l₂ r₁ r₂ : Expr} (h : Same l₁ l₂) (hr : Same r₁ r₂) :
    Same (.binary s₁ op l₁ r₁) (.binary s₂ op l₂ r₂) := by
  simp only [Same, unplaced]
  rw [h, hr]

theorem same_logic (s₁ s₂ : Span) (op : LogicOp) {l₁ l₂ r₁ r₂ : Expr} (h : Same l₁ l₂) (hr : Same r₁ r₂) :
    Same (.logic s₁ op l₁ r₁) (.logic s₂ op l₂ r₂) := by
  simp only [Same, unplaced]
  rw [h, hr]

end Expr

def Target.unplaced : Target → Target
  | var _ name => .var default name
  | property _ base key => .property default base.unplaced key.unplaced

def Target.Same (t₁ t₂ : Target) : Prop := t₁.unplaced = t₂.unplaced

theorem Target.Same.property {t₁ t₂ : Target} {k₁ k₂ : Expr} (s₁ s₂ : Span) (h : t₁.Same t₂) (hk : k₁.Same k₂) :
    (Target.property s₁ t₁.toExpr k₁).Same (.property s₂ t₂.toExpr k₂) := by
  have htarget : t₁.toExpr.unplaced = t₂.toExpr.unplaced := by
    cases t₁ <;> cases t₂ <;> simp_all [Target.Same, Target.unplaced, Target.toExpr, Expr.unplaced]
  simp only [Target.Same, Target.unplaced]
  rw [htarget, hk]

namespace Command

variable {α β : Type}

def map (f : α → β) : Command α → Command β
  | alert m => .alert (f m)
  | notify m => .notify (f m)
  | confirm m v => .confirm (f m) v
  | prompt m d v => .prompt (f m) (d.map f) v
  | write c p => .write (f c) (f p)
  | read p v => .read (f p) v
  | mkdir p => .mkdir (f p)
  | delete p => .delete (f p)
  | launch a p => .launch (f a) (p.map f)
  | close t => .close (t.map f)
  | wait d => .wait (d.map f)
  | window action t => .window action (f t)
  | play s => .play (f s)
  | other name args => .other name (f args)

def Same (r₁ r₂ : Command Expr) : Prop := r₁.map Expr.unplaced = r₂.map Expr.unplaced

end Command

namespace Stmt

mutual

def unplaced : Stmt → Stmt
  | assign _ target value => assign default target.unplaced value.unplaced
  | print _ message => print default message.unplaced
  | branch _ condition ⟨_, yes⟩ none => branch default condition.unplaced ⟨default, unplacedAll yes⟩ none
  | branch _ condition ⟨_, yes⟩ (some ⟨_, no⟩) =>
    branch default condition.unplaced ⟨default, unplacedAll yes⟩ (some ⟨default, unplacedAll no⟩)
  | counted _ ⟨_, body⟩ count => counted default ⟨default, unplacedAll body⟩ count.unplaced
  | conditional _ ⟨_, body⟩ condition => conditional default ⟨default, unplacedAll body⟩ condition.unplaced
  | foreach _ item iterable ⟨_, body⟩ index =>
    foreach default item iterable.unplaced ⟨default, unplacedAll body⟩ index
  | leave _ => leave default
  | skip _ => skip default
  | giveBack _ value => giveBack default (value.map Expr.unplaced)
  | define _ name params ⟨_, body⟩ => define default name params ⟨default, unplacedAll body⟩
  | command _ request => command default (request.map Expr.unplaced)
  | attempt _ ⟨_, tryBlock⟩ ⟨_, catchBlock⟩ errorVar =>
    attempt default ⟨default, unplacedAll tryBlock⟩ ⟨default, unplacedAll catchBlock⟩ errorVar
  | on _ event ⟨_, body⟩ => on default event.unplaced ⟨default, unplacedAll body⟩
  | emit _ event payload => emit default event.unplaced (payload.map Expr.unplaced)
  | evaluate _ e => evaluate default e.unplaced

def unplacedAll : List Stmt → List Stmt
  | [] => []
  | s :: rest => unplaced s :: unplacedAll rest

end

attribute [local simp] unplaced unplacedAll

theorem unplacedAll_eq_map (ss : List Stmt) : unplacedAll ss = ss.map unplaced := by
  induction ss with
  | nil => rfl
  | cons s ss ih => rw [unplacedAll, ih, List.map_cons]

def Same (s₁ s₂ : Stmt) : Prop := s₁.unplaced = s₂.unplaced

def SameAll (ss₁ ss₂ : List Stmt) : Prop := ss₁.map unplaced = ss₂.map unplaced

theorem SameAll.cons {s₁ s₂ : Stmt} {ss₁ ss₂ : List Stmt} (h : Same s₁ s₂) (hs : SameAll ss₁ ss₂) :
    SameAll (s₁ :: ss₁) (s₂ :: ss₂) := by
  unfold SameAll
  rw [List.map_cons, List.map_cons, h, hs]

theorem SameAll.reverse {ss₁ ss₂ : List Stmt} (hs : SameAll ss₁ ss₂) : SameAll ss₁.reverse ss₂.reverse := by
  unfold SameAll
  rw [List.map_reverse, List.map_reverse, hs]

end Stmt

def Block.Same (b₁ b₂ : Block Stmt) : Prop := Stmt.SameAll b₁.statements b₂.statements

def Block.SameOption (o₁ o₂ : Option (Block Stmt)) : Prop :=
  o₁.map (·.statements.map Stmt.unplaced) = o₂.map (·.statements.map Stmt.unplaced)

theorem Block.Same.some {b₁ b₂ : Block Stmt} (h : b₁.Same b₂) : Block.SameOption (some b₁) (some b₂) :=
  congrArg Option.some h

namespace Stmt

variable {e₁ e₂ : Expr} {b₁ b₂ : Block Stmt} (s₁ s₂ : Span)

theorem same_branch {o₁ o₂ : Option (Block Stmt)} (he : e₁.Same e₂) (hb : b₁.Same b₂)
    (ho : Block.SameOption o₁ o₂) : Same (.branch s₁ e₁ b₁ o₁) (.branch s₂ e₂ b₂ o₂) := by
  cases o₁ <;> cases o₂ <;> simp [Block.SameOption] at ho <;>
    simp_all only [Same, unplaced, unplacedAll_eq_map, Block.Same, SameAll, Expr.Same]

theorem same_counted (hb : b₁.Same b₂) (he : e₁.Same e₂) : Same (.counted s₁ b₁ e₁) (.counted s₂ b₂ e₂) := by
  simp_all only [Same, unplaced, unplacedAll_eq_map, Block.Same, SameAll, Expr.Same]

theorem same_conditional (hb : b₁.Same b₂) (he : e₁.Same e₂) :
    Same (.conditional s₁ b₁ e₁) (.conditional s₂ b₂ e₂) := by
  simp_all only [Same, unplaced, unplacedAll_eq_map, Block.Same, SameAll, Expr.Same]

theorem same_foreach (item : String) (index : Option String) (he : e₁.Same e₂) (hb : b₁.Same b₂) :
    Same (.foreach s₁ item e₁ b₁ index) (.foreach s₂ item e₂ b₂ index) := by
  simp_all only [Same, unplaced, unplacedAll_eq_map, Block.Same, SameAll, Expr.Same]

theorem same_define (name : String) (params : List String) (hb : b₁.Same b₂) :
    Same (.define s₁ name params b₁) (.define s₂ name params b₂) := by
  simp_all only [Same, unplaced, unplacedAll_eq_map, Block.Same, SameAll]

theorem same_attempt {d₁ d₂ : Block Stmt} (errorVar : Option String) (hb : b₁.Same b₂) (hd : d₁.Same d₂) :
    Same (.attempt s₁ b₁ d₁ errorVar) (.attempt s₂ b₂ d₂ errorVar) := by
  simp_all only [Same, unplaced, unplacedAll_eq_map, Block.Same, SameAll]

theorem same_on (he : e₁.Same e₂) (hb : b₁.Same b₂) : Same (.on s₁ e₁ b₁) (.on s₂ e₂ b₂) := by
  simp_all only [Same, unplaced, unplacedAll_eq_map, Block.Same, SameAll, Expr.Same]

theorem same_assign {t₁ t₂ : Target} (ht : t₁.Same t₂) (he : e₁.Same e₂) :
    Same (.assign s₁ t₁ e₁) (.assign s₂ t₂ e₂) := by
  simp_all only [Same, unplaced, Target.Same, Expr.Same]

theorem same_print (he : e₁.Same e₂) : Same (.print s₁ e₁) (.print s₂ e₂) := by
  simp_all only [Same, unplaced, Expr.Same]

theorem same_evaluate (he : e₁.Same e₂) : Same (.evaluate s₁ e₁) (.evaluate s₂ e₂) := by
  simp_all only [Same, unplaced, Expr.Same]

theorem same_giveBack {o₁ o₂ : Option Expr} (ho : Expr.SameOption o₁ o₂) :
    Same (.giveBack s₁ o₁) (.giveBack s₂ o₂) := by
  simp_all only [Same, unplaced, Expr.SameOption]

theorem same_emit {o₁ o₂ : Option Expr} (he : e₁.Same e₂) (ho : Expr.SameOption o₁ o₂) :
    Same (.emit s₁ e₁ o₁) (.emit s₂ e₂ o₂) := by
  simp_all only [Same, unplaced, Expr.Same, Expr.SameOption]

theorem same_command {r₁ r₂ : Command Expr} (hr : r₁.Same r₂) : Same (.command s₁ r₁) (.command s₂ r₂) := by
  simp_all only [Same, unplaced, Command.Same]

end Stmt

end DeskScript
