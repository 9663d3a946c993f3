import Mathlib.Data.List.Pairwise
import DeskScript.Proofs.Machine.CallDepth

set_option autoImplicit false

/-!
# Functions at the top of a program

The table of functions is written when the main thread begins and by every definition that is performed, in whatever scope
it stands. If no two definitions of a program share a name, none of these writes makes a difference for a function at the
top of it: only its own definition has its name, and that stands in the root scope. Main statement: `top_functions_stay`.
-/

namespace DeskScript

namespace Stmt

def declares : Stmt → Option String
  | define _ name _ _ => some name
  | _ => none

mutual

def definedNames : Stmt → List String
  | define _ name _ ⟨_, body⟩ => name :: allDefinedNames body
  | counted _ ⟨_, body⟩ _ | conditional _ ⟨_, body⟩ _ | foreach _ _ _ ⟨_, body⟩ _ | on _ _ ⟨_, body⟩ => allDefinedNames body
  | branch _ _ ⟨_, yes⟩ none => allDefinedNames yes
  | branch _ _ ⟨_, yes⟩ (some ⟨_, no⟩) => allDefinedNames yes ++ allDefinedNames no
  | attempt _ ⟨_, tryBlock⟩ ⟨_, catchBlock⟩ _ => allDefinedNames tryBlock ++ allDefinedNames catchBlock
  | assign _ _ _ | print _ _ | leave _ | skip _ | giveBack _ _ | command _ _ | emit _ _ _ | evaluate _ _ => []

def allDefinedNames : List Stmt → List String
  | [] => []
  | s :: rest => definedNames s ++ allDefinedNames rest

end

theorem allDefinedNames_eq (stmts : List Stmt) : allDefinedNames stmts = stmts.flatMap definedNames := by
  induction stmts with
  | nil => rfl
  | cons s rest ih => rw [allDefinedNames, List.flatMap_cons, ih]

theorem definedNames_eq (s : Stmt) : s.definedNames = s.declares.toList ++ s.parts.flatMap definedNames := by
  cases s with
  | define | counted | conditional | foreach | on => simp [definedNames, declares, parts, allDefinedNames_eq]
  | attempt => simp [definedNames, declares, parts, allDefinedNames_eq]
  | branch span condition yes no => cases no <;> simp [definedNames, declares, parts, allDefinedNames_eq]
  | _ => rfl

variable {s t : Stmt} {name : String}

theorem mem_definedNames_of_declares (h : s.declares = some name) : name ∈ s.definedNames := by
  rw [definedNames_eq, h]
  exact List.mem_append_left _ List.mem_cons_self

theorem mem_definedNames_of_part {part : Stmt} (hpart : part ∈ s.parts) (h : name ∈ part.definedNames) :
    name ∈ s.definedNames := by
  rw [definedNames_eq]
  exact List.mem_append_right _ (List.mem_flatMap.2 ⟨part, hpart, h⟩)

end Stmt

namespace Program

def DefinesApart (p : Program) : Prop := (Stmt.allDefinedNames p.statements).Nodup

/-- The statement is one at the top of the program, in the root scope, or there is no definition in it that gives a name
of a function at the top. -/
def Places (p : Program) (scope : ScopeId) (s : Stmt) : Prop :=
  scope = 0 ∧ s ∈ p.statements ∨ ∀ name ∈ s.definedNames, ∀ top ∈ p.statements, top.declares ≠ some name

variable {p : Program} {s t : Stmt} {name : String}

/-- Statements at the top of the program that both define a name are one. -/
theorem DefinesApart.eq (h : p.DefinesApart) (hs : s ∈ p.statements) (ht : t ∈ p.statements) (hname : name ∈ s.definedNames)
    (hname' : name ∈ t.definedNames) : s = t := by
  rw [DefinesApart, Stmt.allDefinedNames_eq, List.nodup_flatMap] at h
  have hsymm : Std.Symm (Function.onFun List.Disjoint Stmt.definedNames) := ⟨fun _ _ => List.disjoint_symm⟩
  by_contra hne
  exact h.2.forall hs ht hne hname hname'

/-- What is defined inside a statement at the top has no name of a function at the top. -/
theorem DefinesApart.inner (h : p.DefinesApart) {part top : Stmt} (hs : s ∈ p.statements) (hpart : part ∈ s.parts)
    (hname : name ∈ part.definedNames) (htop : top ∈ p.statements) : top.declares ≠ some name := by
  intro hdeclares
  obtain rfl := h.eq hs htop (Stmt.mem_definedNames_of_part hpart hname) (Stmt.mem_definedNames_of_declares hdeclares)
  -- the statement would give the name itself and once more in its part
  rw [DefinesApart, Stmt.allDefinedNames_eq, List.nodup_flatMap] at h
  have hnodup := h.1 s hs
  rw [Stmt.definedNames_eq, hdeclares] at hnodup
  exact (List.nodup_cons.1 hnodup).1 (List.mem_flatMap.2 ⟨part, hpart, hname⟩)

theorem DefinesApart.closed (h : p.DefinesApart) : Stmt.Closed p.Places := by
  intro scope s hs part hpart inner
  refine .inr fun name hname top htop => ?_
  rcases hs with ⟨-, hs⟩ | hs
  · exact h.inner hs hpart hname htop
  · exact hs name (Stmt.mem_definedNames_of_part hpart hname) top htop

/-- A function at the top is defined in the root scope. -/
theorem Places.root {scope : ScopeId} {span : Span} {params : List String} {body : Block Stmt}
    (h : p.Places scope (.define span name params body)) (hdefine : .define span name params body ∈ p.statements) :
    scope = 0 := by
  rcases h with ⟨hscope, -⟩ | h
  · exact hscope
  · exact absurd rfl (h name (Stmt.mem_definedNames_of_declares rfl) _ hdefine)

end Program

def Program.Hoisted (p : Program) (table : Dict Routine) : Prop :=
  ∀ span name params body, .define span name params body ∈ p.statements →
    table.get? name = some ⟨name, params, body, 0⟩

namespace Run

variable {s : Stmt} {name : String}

theorem hoist_cons (r : Run) (s : Stmt) (stmts : List Stmt) :
    r.hoist (s :: stmts) = ({ r with functions := r.performs 0 s } : Run).hoist stmts := by
  cases s <;> rfl

theorem get?_performs_of_ne (r : Run) (scope : ScopeId) (h : s.declares ≠ some name) :
    (r.performs scope s).get? name = r.functions.get? name := by
  cases s with
  | define span other params body => exact Dict.get?_insert_of_ne _ _ _ _ fun heq => h (congrArg some heq.symm)
  | _ => rfl

theorem get?_hoist_of_ne (r : Run) {stmts : List Stmt} (h : ∀ s ∈ stmts, s.declares ≠ some name) :
    (r.hoist stmts).functions.get? name = r.functions.get? name := by
  induction stmts generalizing r with
  | nil => rfl
  | cons s stmts ih =>
    obtain ⟨hs, hstmts⟩ := List.forall_mem_cons.1 h
    rw [hoist_cons, ih _ hstmts, r.get?_performs_of_ne 0 hs]

/-- What a thread hoists is in the table as it is defined, if each name is defined once. -/
theorem get?_hoist (r : Run) {stmts : List Stmt} (h : (Stmt.allDefinedNames stmts).Nodup) {span : Span}
    {params : List String} {body : Block Stmt} (hdefine : .define span name params body ∈ stmts) :
    (r.hoist stmts).functions.get? name = some ⟨name, params, body, 0⟩ := by
  induction stmts generalizing r with
  | nil => cases hdefine
  | cons s stmts ih =>
    obtain ⟨-, hrest, hdisjoint⟩ := List.nodup_append'.1 h
    rw [hoist_cons]
    rcases List.mem_cons.1 hdefine with rfl | hdefine
    · refine (get?_hoist_of_ne _ fun t ht hdeclares => ?_).trans (Dict.get?_insert_self _ _ _)
      refine hdisjoint (Stmt.mem_definedNames_of_declares rfl) ?_
      rw [Stmt.allDefinedNames_eq]
      exact List.mem_flatMap.2 ⟨t, ht, Stmt.mem_definedNames_of_declares hdeclares⟩
    · exact ih _ hrest hdefine

end Run

namespace Program

variable {p : Program} {r : Run} {scope : ScopeId} {s : Stmt}

theorem DefinesApart.hoisted (h : p.DefinesApart) (r : Run) : p.Hoisted (r.hoist p.statements).functions :=
  fun _ _ _ _ hdefine => r.get?_hoist h hdefine

/-- A statement of the program writes the functions at the top only as they are in the table. -/
theorem Hoisted.performs (h : p.Hoisted r.functions) (hapart : p.DefinesApart) (hs : p.Places scope s) :
    p.Hoisted (r.performs scope s) := by
  intro span name params body hdefine
  by_cases hdeclares : s.declares = some name
  · -- only the definition itself gives the name
    rcases hs with ⟨rfl, hs⟩ | hs
    · obtain rfl := hapart.eq hs hdefine (Stmt.mem_definedNames_of_declares hdeclares)
        (Stmt.mem_definedNames_of_declares rfl)
      exact Dict.get?_insert_self _ _ _
    · exact absurd rfl (hs name (Stmt.mem_definedNames_of_declares hdeclares) _ hdefine)
  · rw [r.get?_performs_of_ne scope hdeclares]
    exact h span name params body hdefine

end Program

namespace Moment

variable {p : Program} {m n : Moment} {id : RunId}

/-- Once the main thread of the run has begun, the functions at the top are in the table. -/
def Hoists (p : Program) (id : RunId) (m : Moment) : Prop :=
  (m.thread id .main).control ≠ .start → p.Hoisted (m.run id).functions

theorem Hoists.acts {side : Side} (h : Hoists p id m) (hacts : Acts id side m n) (hm : Possible m)
    (hprogram : (m.run id).program = some p) (hapart : p.DefinesApart) (hcarries : Carries p.Places id m) :
    Hoists p id n := by
  intro hbegun
  obtain ⟨hother, -⟩ := hacts.stride hm.sound
  rw [hacts.functions hm]
  by_cases hstart : (m.thread id .main).control = .start
  · cases side with
    | main =>
      rw [Thread.table, hstart]
      simp only [Run.begins, hprogram]
      exact hapart.hoisted _
    | worker => exact absurd (hother ▸ hstart) hbegun
  · have hhoisted := h hstart
    have hplaces := (hcarries.threads side).control
    unfold Thread.table
    cases hcontrol : (m.thread id side).control with
    | perform s scope =>
      rw [hcontrol] at hplaces
      exact hhoisted.performs hapart hplaces
    | start =>
      cases side with
      | main => exact absurd hcontrol hstart
      | worker => exact hhoisted
    | _ => exact hhoisted

theorem Hoists.move (h : Hoists p id m) (hn : Move m n) (hm : Possible m) (hid : id < m.size)
    (hprogram : (m.run id).program = some p) (hapart : p.DefinesApart) (hcarries : Carries p.Places id m) :
    Hoists p id n := by
  rcases hn.acts_or_same hm.sound hid with ⟨side, hacts⟩ | ⟨hsame, hthreads⟩
  · exact h.acts hacts hm hprogram hapart hcarries
  · exact fun hbegun => hsame.functions ▸ h (hthreads .main ▸ hbegun)

theorem Possible.places (hm : Possible m) (hid : id < m.size) (hprogram : (m.run id).program = some p)
    (hapart : p.DefinesApart) : Carries p.Places id m := by
  refine hm.carries hapart.closed hid fun other hother s hs => .inl ⟨rfl, ?_⟩
  rw [hprogram] at hother
  exact Option.some.inj hother ▸ hs

theorem Possible.hoists (hm : Possible m) (hid : id < m.size) (hprogram : (m.run id).program = some p)
    (hapart : p.DefinesApart) : Hoists p id m := by
  refine hm.run_induction (P := fun id m => (m.run id).program = some p → Hoists p id m) hid
    (fun _ hthreads _ hbegun => ?_) (fun {m n id} hm hid hn ih hprogram => ?_) hprogram
  · exact absurd (congrArg Thread.control (hthreads .main)) hbegun
  · rw [(hn.terms hm hid).program] at hprogram
    exact (ih hprogram).move hn hm hid hprogram hapart (hm.places hid hprogram hapart)

end Moment

/-- If no two definitions in a program share a name, a function at the top of it is in the table with the root scope for its
closure from the moment when the main thread has begun, whatever has been defined since and by whom: performing its
definition writes nothing new, and a call of it, before or after, takes it. -/
theorem top_functions_stay {m : Moment} (hm : m.Possible) {id : RunId} (hid : id < m.size) {p : Program}
    (hprogram : (m.run id).program = some p) (hapart : p.DefinesApart) (hbegun : (m.thread id .main).control ≠ .start)
    {span : Span} {name : String} {params : List String} {body : Block Stmt}
    (hdefine : .define span name params body ∈ p.statements) :
    (m.run id).functions.get? name = some ⟨name, params, body, 0⟩ ∧
    (∀ side scope, (m.thread id side).control = .perform (.define span name params body) scope →
      ∀ n, m.Move n → (n.run id).functions = (m.run id).functions) ∧
    (∀ side rest args, (m.thread id side).Calls name rest args →
      ∀ n, m.Move n → n.At id side ((m.run id).callRoutine m.desk ⟨name, params, body, 0⟩ args rest)) := by
  have hget := hm.hoists hid hprogram hapart hbegun span name params body hdefine
  refine ⟨hget, fun side scope hcontrol n hn => ?_, fun side rest args hcalls n hn => hn.called hm.sound hcalls hget⟩
  have hinner : (m.thread id side).control.atRest = false := by
    rw [hcontrol]
    rfl
  have hplaces := ((hm.places hid hprogram hapart).threads side).control
  rw [hcontrol] at hplaces
  obtain rfl := hplaces.root hdefine
  rw [(hn.inner hm.sound hinner).run]
  unfold Run.step
  rw [hcontrol]
  exact Dict.insert_of_get? hget

namespace Calling

/-- The tokens of `call f; def f() {def g() {}}`, without places. -/
def tokens : List Token :=
  [(Content.keyword .call, "call"), (.word, "f"), (.symbol .semicolon, ";"), (.keyword .define, "def"), (.word, "f"),
    (.symbol .leftParen, "("), (.symbol .rightParen, ")"), (.symbol .leftBrace, "\x7b"), (.keyword .define, "def"),
    (.word, "g"), (.symbol .leftParen, "("), (.symbol .rightParen, ")"), (.symbol .leftBrace, "\x7b"),
    (.symbol .rightBrace, "\x7d"), (.symbol .rightBrace, "\x7d"), (.finish, "")].map fun (content, lexeme) => ⟨content, lexeme, default⟩

def body : Block Stmt := ⟨default, [.define default "g" [] ⟨default, []⟩]⟩

def program : Program := ⟨default, [.evaluate default (.call default "f" []), .define default "f" [] body], #[]⟩

def world : World := ({} : World).launch "script" program {} 0 {} .root

theorem world_reachable : (Moment.resting world).Reachable :=
  Moment.launched_reachable tokens rfl (by simp)

def called : Moment := (Moment.resting world).after 6

def defining : Moment := called.after 17

theorem called_possible : called.Possible := (Moment.after_reachable world_reachable 6).possible

theorem program_apart : program.DefinesApart := by
  unfold Program.DefinesApart
  decide

def above : List Frame := [.discard, .located default, .following [.define default "f" [] body] 0, .program]

theorem called_thread : called.thread 0 .main = ⟨.evaluate (.call default "f" []) 0, above⟩ := rfl

theorem defining_control : (defining.thread 0 .main).control = .perform (.define default "f" [] body) 0 := rfl

end Calling

/-- The call before the definition begins the body of the function, and when the definition is performed at last, with
another in the table that the body has defined, it changes nothing. -/
theorem top_functions_stay_calling : Calling.called.Possible ∧ 0 < Calling.called.size ∧ Calling.program.DefinesApart ∧
    (∀ n, Calling.called.Move n → n.thread 0 .main = ⟨.statements Calling.body.statements 1, .call "f" :: Calling.above⟩) ∧
    ((Calling.defining.run 0).functions.get? "g").isSome = true ∧
    (Calling.defining.run 0).functions.get? "f" = some ⟨"f", [], Calling.body, 0⟩ ∧
    ∀ n, Calling.defining.Move n → (n.run 0).functions = (Calling.defining.run 0).functions := by
  have hsize : 0 < Calling.called.size := by decide +kernel
  have hdefine : Stmt.define default "f" [] Calling.body ∈ Calling.program.statements :=
    List.mem_cons_of_mem _ List.mem_cons_self
  have hmoves := Calling.called.moves_after 17
  obtain ⟨-, -, hcalls⟩ := top_functions_stay Calling.called_possible hsize rfl Calling.program_apart
    (Calling.called_thread ▸ fun h => nomatch h) hdefine
  obtain ⟨hget, hperforms, -⟩ := top_functions_stay (Calling.called_possible.moves hmoves)
    (Nat.lt_of_lt_of_le hsize hmoves.size) rfl Calling.program_apart
    (Calling.defining_control ▸ fun h => nomatch h) hdefine
  refine ⟨Calling.called_possible, hsize, Calling.program_apart, fun n hn => ?_, rfl, hget, ?_⟩
  · exact (hcalls .main _ [] (Calling.called_thread ▸ .bare default 0) n hn).thread
  · exact hperforms .main 0 Calling.defining_control

end DeskScript
