import DeskScript.Number.Layout

set_option autoImplicit false

/-!
# Locations and spans

A location counts lines and columns from one and code points from zero; a span is a half-open range of the source, with
the name of the file it belongs to.
-/

namespace DeskScript

structure Location where
  line : Nat
  column : Nat
  offset : Nat
  deriving DecidableEq, Inhabited

namespace Location

def origin : Location := ⟨1, 1, 0⟩

def next (l : Location) (c : Char) : Location :=
  if c = '\n' then ⟨l.line + 1, 1, l.offset + 1⟩ else ⟨l.line, l.column + 1, l.offset + 1⟩

def after (l : Location) (cs : List Char) : Location := cs.foldl next l

@[simp] theorem after_cons (l : Location) (c : Char) (cs : List Char) : l.after (c :: cs) = (l.next c).after cs := rfl

theorem after_append (l : Location) (cs ds : List Char) : l.after (cs ++ ds) = (l.after cs).after ds := by
  simp [after, List.foldl_append]

theorem next_offset (l : Location) (c : Char) : (l.next c).offset = l.offset + 1 := by
  unfold next
  split <;> rfl

theorem after_offset (l : Location) (cs : List Char) : (l.after cs).offset = l.offset + cs.length := by
  induction cs generalizing l with
  | nil => rfl
  | cons c cs ih => rw [after_cons, ih, next_offset, List.length_cons]; omega

def text (l : Location) : String := s!"{l.line}:{l.column}"

end Location

structure Span where
  start : Location
  stop : Location
  file : Option String := none
  deriving DecidableEq, Inhabited

namespace Span

def fileLead (s : Span) : String :=
  match s.file with
  | some name => if name.isEmpty then "" else name ++ ":"
  | none => ""

def startText (s : Span) : String := s.fileLead ++ s.start.text

def text (s : Span) : String := s.fileLead ++ s.start.text ++ "-" ++ s.stop.text

end Span

end DeskScript
