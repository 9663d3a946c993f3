import DeskScript.Plain
import DeskScript.Script.Fault
import DeskScript.Text.Case

set_option autoImplicit false

/-!
# Configuration

Budgets of a run, the boot scripts and the level of logging. A configuration is read from plain data: every key must be
known, budgets are positive numbers, and what is not given has a default.
-/

namespace DeskScript

structure Limits where
  timeoutSeconds : Float := 30
  maxLoopIterations : Int := 100000
  maxCallDepth : Int := 100
  yieldInterval : Int := 500

def Limits.withTimeout (l : Limits) (seconds : Option Float) : Limits :=
  match seconds with
  | none => l
  | some s => { l with timeoutSeconds := s }

inductive LogLevel where
  | debug | info | warning | error | critical
  deriving DecidableEq

def LogLevel.name : LogLevel → String
  | debug => "DEBUG" | info => "INFO" | warning => "WARNING" | error => "ERROR" | critical => "CRITICAL"

def LogLevel.all : List LogLevel := [debug, info, warning, error, critical]

def LogLevel.ofName? (name : String) : Option LogLevel := LogLevel.all.find? (·.name = name)

def defaultAutoexecPaths : List String :=
  ["C:/Windows/autoexec.retro", "C:/Scripts/autoexec.retro", "C:/Users/User/autoexec.retro"]

structure Config where
  limits : Limits := {}
  autoexecPaths : List String := defaultAutoexecPaths
  autoexecTimeout : Float := 10
  logLevel : LogLevel := .warning

inductive ConfigFault where
  | rootKind (kind : String)
  | unknownKeys (part : String) (keys : List String)
  | notMapping (part : String)
  | notNumber (key kind : String)
  | notPositive (key : String)
  | pathsKind
  | unknownLevel (name : String)
  | notFound (path : String)
  | malformed (path : String)
  | unreadable (path reason : String)
  /-- A fault that no rule of the configuration covers. -/
  | fault (f : Fault)

def ConfigFault.message : ConfigFault → String
  | rootKind kind => "expected mapping at root, got " ++ kind
  | unknownKeys part keys => "unknown key(s) in " ++ part ++ ": " ++ ", ".intercalate keys
  | notMapping part => part ++ " must be a mapping"
  | notNumber key kind => key ++ " must be a number, got " ++ kind
  | notPositive key => key ++ " must be positive"
  | pathsKind => "autoexec.paths must be a list of strings"
  | unknownLevel name => "unknown log_level: " ++ name
  | notFound path => "config file not found: " ++ path
  | malformed path => "YAML parse error in " ++ path
  | unreadable path reason => "cannot read " ++ path ++ ": " ++ reason
  | fault f => f.message

namespace Config

def inOrder (keys : List String) : List String := keys.eraseDups.mergeSort fun a b => !decide (b < a)

def checkKeys (part : String) (entries : Dict Plain) (known : List String) : Except ConfigFault Unit :=
  match inOrder (entries.keys.filter fun k => !known.contains k) with
  | [] => .ok ()
  | unknown => .error (.unknownKeys part unknown)

/-- A positive number. NaN counts as positive. -/
def positive (key : String) (p : Plain) : Except ConfigFault Plain :=
  match p with
  | .int i => if i ≤ 0 then .error (.notPositive key) else .ok p
  | .float x => if x ≤ 0 then .error (.notPositive key) else .ok p
  | p => .error (.notNumber key p.typeName)

def toFloat (p : Plain) : Except ConfigFault Float :=
  match p with
  | .int i =>
    match Number.ofInt? i with
    | some x => .ok x
    | none => .error (.fault .integerTooLarge)
  | .float x => .ok x
  | _ => .ok 0

def toInt (p : Plain) : Except ConfigFault Int :=
  match p with
  | .int i => .ok i
  | .float x =>
    if x.isNaN then .error (.fault .integerOfNaN)
    else if x.isInf then .error (.fault .integerOfInfinity)
    else .ok (Number.truncated x)
  | _ => .ok 0

/-- A part of the configuration that must be a mapping; what counts as absent is an empty one. -/
def part (entries : Dict Plain) (name : String) : Except ConfigFault (Dict Plain) :=
  match entries.get? name with
  | none => .ok []
  | some p =>
    if p.isPresent then
      match p with
      | .dict inner => .ok inner
      | _ => .error (.notMapping name)
    else .ok []

def setLimit (l : Limits) (key : String) (p : Plain) : Except ConfigFault Limits := do
  let p ← positive ("limits." ++ key) p
  match key with
  | "timeout_seconds" => return { l with timeoutSeconds := ← toFloat p }
  | "max_loop_iterations" => return { l with maxLoopIterations := ← toInt p }
  | "max_call_depth" => return { l with maxCallDepth := ← toInt p }
  | "yield_interval" => return { l with yieldInterval := ← toInt p }
  | _ => return l

def limitKeys : List String := ["timeout_seconds", "max_loop_iterations", "max_call_depth", "yield_interval"]

def limitsOf (entries : Dict Plain) : Except ConfigFault Limits := do
  let given ← part entries "limits"
  checkKeys "limits" given limitKeys
  given.foldlM (fun l (key, p) => setLimit l key p) {}

def texts? : List Plain → Option (List String)
  | [] => some []
  | .str s :: rest => (texts? rest).map (s :: ·)
  | _ :: _ => none

def autoexecOf (entries : Dict Plain) : Except ConfigFault (List String × Float) := do
  let given ← part entries "autoexec"
  checkKeys "autoexec" given ["paths", "timeout_seconds"]
  let paths ← match given.get? "paths" with
    | none => .ok defaultAutoexecPaths
    | some (.list items) =>
      match texts? items with
      | some paths => .ok paths
      | none => .error .pathsKind
    | some _ => .error .pathsKind
  let timeout ← positive "autoexec.timeout_seconds" ((given.get? "timeout_seconds").getD (.float 10))
  return (paths, ← toFloat timeout)

def logLevelOf (entries : Dict Plain) : Except ConfigFault LogLevel :=
  let name := Text.upper ((entries.get? "log_level").getD (.str "WARNING")).printed
  match LogLevel.ofName? name with
  | some level => .ok level
  | none => .error (.unknownLevel name)

def ofPlain : Plain → Except ConfigFault Config
  | .null => .ok {}
  | .dict entries => do
    checkKeys "config" entries ["limits", "autoexec", "log_level"]
    let limits ← limitsOf entries
    let (autoexecPaths, autoexecTimeout) ← autoexecOf entries
    let logLevel ← logLevelOf entries
    return { limits, autoexecPaths, autoexecTimeout, logLevel }
  | p => .error (.rootKind p.typeName)

end Config

end DeskScript
