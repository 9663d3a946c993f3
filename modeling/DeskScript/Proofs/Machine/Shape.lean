import DeskScript.Proofs.Syntax.Confined
import DeskScript.Machine.Thread

set_option autoImplicit false

/-!
# The shape of a thread

Which frames may lie on which, and which controls may stand above them. A stack ends in the frame of a program, of a
handler or of a closing run; above it, every frame gives the next what that waits for, and holds statements whose `leave`
and `skip` have a loop around them.
-/

namespace DeskScript

inductive Need where
  | value
  | ending
  | leave
  | reply
  deriving DecidableEq

namespace Frame

def need : Frame → Need
  | following .. | located _ | round .. | attempt .. | call _ | handler | program => .ending
  | entering .. | turn .. => .leave
  | collaborator .. | requested | clearing | closing _ => .reply
  | _ => .value

def gives : Frame → Option Need
  | handler | program | closing _ => none
  | left .. | right .. | logic .. | truth | unary _ | base .. | key _ | arguments .. | elements .. | entries .. | call _
  | requested => some .value
  | clearing => some .leave
  | _ => some .ending

/-- The statements of the frame are confined; `inLoop` says whether a loop is around what follows the frame. -/
def confined (inLoop : Bool) : Frame → Bool
  | following stmts _ => Stmt.allConfined inLoop stmts
  | entering s _ => s.confined inLoop
  | branch yes none _ => Stmt.allConfined inLoop yes.statements
  | branch yes (some no) _ => Stmt.allConfined inLoop yes.statements && Stmt.allConfined inLoop no.statements
  | count body _ | items _ _ body _ | turn _ body _ | test _ _ body _ | round _ body _ =>
    Stmt.allConfined true body.statements
  | subscribe body _ => Stmt.allConfined false body.statements
  | attempt catchBlock _ _ => Stmt.allConfined inLoop catchBlock.statements
  | _ => true

end Frame

def loopAround : List Frame → Bool
  | [] => false
  | .round .. :: _ => true
  | .call _ :: _ | .handler :: _ | .program :: _ => false
  | _ :: rest => loopAround rest

def calls : List Frame → Nat
  | [] => 0
  | .call _ :: rest => calls rest + 1
  | _ :: rest => calls rest

/-- A stack whose top frame has the given need. -/
def Stacked : Need → List Frame → Prop
  | _, [] => False
  | need, frame :: rest =>
    frame.need = need ∧ frame.confined (loopAround rest) = true ∧
      match frame.gives with
      | none => rest = []
      | some given => Stacked given rest

def Signal.seeksLoop : Option Signal → Bool
  | some .leave | some .skip => true
  | some (.back _) | none => false

def Control.Fits (stack : List Frame) : Control → Prop
  | statements stmts _ => Stacked .ending stack ∧ Stmt.allConfined (loopAround stack) stmts = true
  | perform s _ => Stacked .ending stack ∧ s.confined (loopAround stack) = true
  | evaluate _ _ | value _ => Stacked .value stack
  | ended signal => Stacked .ending stack ∧ (Signal.seeksLoop signal = true → loopAround stack = true)
  | raised _ => ∃ need, Stacked need stack
  | checkpoint | recheck | clear | passed => Stacked .leave stack
  | request _ | resume _ _ | replied _ => Stacked .reply stack
  | start | receive | settle _ | finished => stack = []

def Control.atRest : Control → Bool
  | recheck | resume _ _ | start | receive | settle _ | finished => true
  | _ => false

theorem calls_le_cons (frame : Frame) (stack : List Frame) : calls stack ≤ calls (frame :: stack) := by
  cases frame <;> simp [calls]

def Thread.Fits (t : Thread) : Prop := t.control.Fits t.stack

end DeskScript
