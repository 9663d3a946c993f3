import DeskScript.Source.Diagnostic
import DeskScript.Token.Basic
import DeskScript.Value.Kind
import DeskScript.Script.Fault

set_option autoImplicit false

/-!
# Script errors

An error is a cause, and from the cause follow its wording, its code and whether a script may catch it: faults of a
running statement can be caught, syntax errors, exhausted budgets and cancellation cannot.
-/

namespace DeskScript

/-- Why a script failed. Texts of values are kept as they are displayed. -/
inductive Cause where
  -- malformed source
  | lexical (fault : LexicalFault)
  | unexpectedToken (expected found : String)
  | unexpectedEnd (expected : String)
  | invalidTarget
  | outsideLoop (word : String)
  -- arithmetic and indexing
  | divisionByZero
  | moduloByZero
  | indexOutOfRange (index : String) (length : Nat)
  | builtinFailed (name : String) (reason : String)
  -- names
  | undefinedVariable (name : String)
  | unknownFunction (name : String)
  | assertion (text : String)
  -- operands and arguments
  | cannotAdd (left right : Kind)
  | operandKinds (symbol : String) (left right : Kind)
  | cannotCompare (left right : Kind) (symbol : String)
  | cannotNegate (kind : Kind)
  | indexNotInteger (shown : String)
  | unreadableProperty (key : String) (kind : Kind)
  | arrayIndexKind (kind : Kind)
  | unwritableProperty (key : String) (kind : Kind)
  | loopCountKind (kind : Kind)
  | loopCountInfinite (shown : String)
  | notIterable (kind : Kind)
  | waitDuration (shown : String)
  | arity (name expected : String) (given : Nat)
  | argumentKind (name : String) (position : Nat) (expected : String) (kind : Kind)
  | notFinite (name shown : String)
  | repeatTooLong
  | rangeNotFinite
  | rangeTooLong
  | fillTooLong
  | notNumbers (name : String) (kind : Kind)
  | mapOperation (operation : String)
  | invalidCodePoint (reason : String)
  | noNumber (kind : Kind) (shown : String)
  | noInteger (kind : Kind) (shown : String)
  | invalidJson (reason : String)
  | stateNotList (path : String)
  -- collaborators
  | collaborator (task reason : String)
  | scriptNotLoaded (reason : String)
  -- budgets
  | loopLimit (iterations : Int)
  | timeout (seconds : Float)
  | callDepth (limit : Int) (name : String)
  | stackDepth (name : String)
  | cancelled

inductive Category where
  | syntactic | running | undefined | argument | collaborator | loopLimit | timeout | callDepth | cancelled
  deriving DecidableEq

namespace Category

/-- A script may catch the faults of its own statements. -/
def catchable : Category → Bool
  | running | undefined | argument | collaborator => true
  | syntactic | loopLimit | timeout | callDepth | cancelled => false

def kindName : Category → String
  | syntactic => "syntax"
  | running | undefined | argument | collaborator => "runtime"
  | loopLimit | timeout | callDepth => "resource"
  | cancelled => "cancelled"

end Category

def generatedLimit : Nat := 1000000

namespace Cause

def category : Cause → Category
  | lexical _ | unexpectedToken .. | unexpectedEnd _ | invalidTarget | outsideLoop _ => .syntactic
  | divisionByZero | moduloByZero | indexOutOfRange .. | builtinFailed .. | unknownFunction _ | assertion _ => .running
  | undefinedVariable _ => .undefined
  | cannotAdd .. | operandKinds .. | cannotCompare .. | cannotNegate _ | indexNotInteger _ | unreadableProperty ..
  | arrayIndexKind _ | unwritableProperty .. | loopCountKind _ | loopCountInfinite _ | notIterable _ | waitDuration _
  | arity .. | argumentKind .. | notFinite .. | repeatTooLong | rangeNotFinite | rangeTooLong | fillTooLong
  | notNumbers .. | mapOperation _ | invalidCodePoint _ | noNumber .. | noInteger .. | invalidJson _
  | stateNotList _ => .argument
  | collaborator .. | scriptNotLoaded _ => .collaborator
  | loopLimit _ => .loopLimit
  | timeout _ => .timeout
  | callDepth .. | stackDepth _ => .callDepth
  | cancelled => .cancelled

def code : Cause → String
  | lexical _ => "E001"
  | unexpectedToken .. => "E101"
  | unexpectedEnd _ => "E102"
  | invalidTarget => "E103"
  | outsideLoop _ => "E104"
  | unknownFunction _ => "E404"
  | assertion _ => "E405"
  | cause =>
    match cause.category with
    | .syntactic => "E100"
    | .running => "E400"
    | .undefined => "E401"
    | .argument => "E402"
    | .collaborator => "E403"
    | .loopLimit => "E501"
    | .timeout => "E502"
    | .callDepth => "E503"
    | .cancelled => "E510"

def hints : Cause → List String
  | invalidTarget => ["assign to $name, $name.key or $name[index]"]
  | _ => []

def message : Cause → String
  | lexical fault => fault.message
  | unexpectedToken expected found => "expected " ++ expected ++ ", found " ++ found
  | unexpectedEnd expected => "unexpected end of input, expected " ++ expected
  | invalidTarget => "invalid assignment target"
  | outsideLoop word => "'" ++ word ++ "' outside of a loop"
  | divisionByZero => "division by zero"
  | moduloByZero => "modulo by zero"
  | indexOutOfRange index length =>
    "index " ++ index ++ " out of range for array of length " ++ toString length
  | builtinFailed name reason => name ++ "() failed: " ++ reason
  | undefinedVariable name => "undefined variable '$" ++ name ++ "'"
  | unknownFunction name => "unknown function '" ++ name ++ "'"
  | assertion text => text
  | cannotAdd left right => "cannot add " ++ left.name ++ " and " ++ right.name
  | operandKinds symbol left right =>
    "operator '" ++ symbol ++ "' expects numbers, got " ++ left.name ++ " and " ++ right.name
  | cannotCompare left right symbol =>
    "cannot compare " ++ left.name ++ " and " ++ right.name ++ " with '" ++ symbol ++ "'"
  | cannotNegate kind => "cannot negate " ++ kind.name
  | indexNotInteger shown => "index must be an integer, got " ++ shown
  | unreadableProperty key kind => "cannot read property '" ++ key ++ "' of " ++ kind.name
  | arrayIndexKind kind => "array index must be a number, got " ++ kind.name
  | unwritableProperty key kind => "cannot set property '" ++ key ++ "' on " ++ kind.name
  | loopCountKind kind => "loop count must be a number, got " ++ kind.name
  | loopCountInfinite shown => "loop count must be finite, got " ++ shown
  | notIterable kind => "cannot iterate over " ++ kind.name
  | waitDuration shown => "wait duration must be a number, got " ++ shown
  | arity name expected given =>
    name ++ "() expects " ++ expected ++ (if expected = "1" then " argument, got " else " arguments, got ") ++
      toString given
  | argumentKind name position expected kind =>
    name ++ "() argument " ++ toString position ++ " must be " ++ expected ++ ", got " ++ kind.name
  | notFinite name shown => name ++ "() expects a finite number, got " ++ shown
  | repeatTooLong => "repeat() result longer than " ++ toString generatedLimit
  | rangeNotFinite => "range() expects finite numbers"
  | rangeTooLong => "range() longer than " ++ toString generatedLimit ++ " elements"
  | fillTooLong => "fill() longer than " ++ toString generatedLimit ++ " elements"
  | notNumbers name kind => name ++ "() expects an array of numbers, got " ++ kind.name
  | mapOperation operation =>
    "map() operation must be double, square, string, number or boolean, got '" ++ operation ++ "'"
  | invalidCodePoint reason => "fromCharCode(): invalid code point (" ++ reason ++ ")"
  | noNumber kind shown => "toNumber() cannot convert " ++ kind.name ++ " '" ++ shown ++ "' to a number"
  | noInteger kind shown => "toInt() cannot convert " ++ kind.name ++ " '" ++ shown ++ "' to an integer"
  | invalidJson reason => "fromJSON(): invalid JSON (" ++ reason ++ ")"
  | stateNotList path => "state '" ++ path ++ "' is not a list"
  | collaborator task reason => task ++ " failed: " ++ reason
  | scriptNotLoaded reason => "failed to load script: " ++ reason
  | loopLimit iterations => "loop exceeded " ++ Number.intText iterations ++ " iterations"
  | timeout seconds => "script exceeded time limit of " ++ Number.briefText seconds ++ " seconds"
  | callDepth limit name => "call depth exceeded " ++ Number.intText limit ++ " in '" ++ name ++ "'"
  | stackDepth name => "call depth exceeded the interpreter stack in '" ++ name ++ "'"
  | cancelled => "script cancelled"

end Cause

/-- An error with its place in the source, once that is known. -/
structure ScriptError where
  cause : Cause
  span : Option Span := none
  sourceLine : Option String := none

namespace ScriptError

def message (e : ScriptError) : String := e.cause.message

def line? (e : ScriptError) : Option Nat := e.span.map (·.start.line)

def locate (e : ScriptError) (span : Span) (sourceLine : Option String) : ScriptError :=
  match e.span with
  | some _ => e
  | none => { e with span := some span, sourceLine }

theorem locate_cause (e : ScriptError) (span : Span) (line : Option String) : (e.locate span line).cause = e.cause := by
  unfold locate
  split <;> rfl

def diagnostic (e : ScriptError) : Diagnostic :=
  { code := e.cause.code, message := e.message, span := e.span, sourceLine := e.sourceLine, hints := e.cause.hints }

end ScriptError

/-- Whatever can stop an operation: an error of the script or a fault outside it. -/
inductive Failure where
  | script (e : ScriptError)
  | fault (f : Fault)

namespace Failure

def because (cause : Cause) : Failure := .script { cause }

def message : Failure → String
  | .script e => e.message
  | .fault f => f.message

end Failure

end DeskScript
