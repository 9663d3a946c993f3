import DeskScript.Source.Location

set_option autoImplicit false

/-!
# Diagnostics

A message with its code, its place, the source line it points at and hints, and its form on a terminal: the line with a
row of carets under the span.
-/

namespace DeskScript

structure Diagnostic where
  code : String
  message : String
  span : Option Span := none
  sourceLine : Option String := none
  hints : List String := []

namespace Diagnostic

def padStart (width : Nat) (s : String) : String := String.ofList (List.replicate (width - s.length) ' ') ++ s

/-- The row of carets under a source line: at least one, and to the end of the line when the span goes on below it. -/
def carets (span : Span) (line : String) : String :=
  let stop := if span.start.line = span.stop.line then span.stop.column else line.length + 1
  String.ofList
    (List.replicate (span.start.column - 1) ' ' ++ List.replicate (max 1 (stop - span.start.column)) '^')

def headline (d : Diagnostic) : String :=
  let rest := "error[" ++ d.code ++ "]: " ++ d.message
  match d.span with
  | some span => span.startText ++ ": " ++ rest
  | none => rest

def excerpt (d : Diagnostic) : List String :=
  match d.span, d.sourceLine with
  | some span, some line =>
    ["  |", padStart 3 (toString span.start.line) ++ " | " ++ line, "    | " ++ carets span line]
  | _, _ => []

def format (d : Diagnostic) (showSource : Bool := true) : String :=
  "\n".intercalate
    (d.headline :: (if showSource then d.excerpt else []) ++ d.hints.map ("    = hint: " ++ ·))

end Diagnostic

end DeskScript
