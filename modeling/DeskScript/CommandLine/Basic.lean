import DeskScript.CommandLine.Arguments
import DeskScript.CommandLine.Param
import DeskScript.Config.File
import DeskScript.Engine
import DeskScript.Syntax.Outline

set_option autoImplicit false

/-!
# The command line

The commands as functions of their surroundings: the disk, the environment and the typed input. `check`, `tokens` and
`ast` show what is in a script; `run` runs it with dialogs on the terminal and its files below a root directory.
-/

namespace DeskScript.CommandLine

structure Surroundings where
  disk : Disk := {}
  /-- The configuration file that the environment names. -/
  configPath : Option String := none
  input : String := ""
  startMillis : Float := 1700000000000

structure Trace where
  output : String := ""
  errors : String := ""
  disk : Disk

inductive Completion where
  | usage (u : Usage)
  | exit (code : Nat) (trace : Trace)
  /-- A fault that nothing handles. -/
  | crash (f : Fault) (trace : Trace)

namespace Completion

def printed (disk : Disk) (output : String) : Completion := exit 0 { output, disk }

def complained (disk : Disk) (line : String) : Completion := exit 1 { errors := line ++ "\n", disk }

end Completion

inductive Loaded where
  | source (text : String)
  | missing (path : String)
  | unreadable (f : Fault)

def load (disk : Disk) (file : String) : Loaded :=
  let path := UserPath.ofText file
  match path.locate disk with
  | .error .nameTooLong => .unreadable (.nameTooLong path.text)
  | .error _ => .missing path.text
  | .ok place =>
    match disk.read place with
    | .ok content => .source (Text.asRead content)
    | .error _ => .unreadable (.directoryRead path.text)

def withSource (disk : Disk) (file : String) (next : String → Completion) : Completion :=
  match load disk file with
  | .source text => next text
  | .missing path => .complained disk ("Error: File not found: " ++ path)
  | .unreadable f => .crash f { disk }

def withProgram (disk : Disk) (file : String) (next : Program → Completion) : Completion :=
  withSource disk file fun text =>
    match parse text (some file) with
    | .ok program => next program
    | .error e => .complained disk e.diagnostic.format

def check (disk : Disk) (file : String) : Completion :=
  withProgram disk file fun program =>
    .printed disk ("OK: " ++ (UserPath.ofText file).name ++ " - " ++ toString program.statements.length ++
      " statement(s), no errors\n")

def outline (disk : Disk) (file : String) : Completion :=
  withProgram disk file fun program => .printed disk (program.outline.text ++ "\n")

def padLeft (width : Nat) (s : String) : String := String.ofList (List.replicate (width - s.length) ' ') ++ s

def padRight (width : Nat) (s : String) : String := s ++ String.ofList (List.replicate (width - s.length) ' ')

def tokenLine (t : Token) : String :=
  padLeft 4 (toString t.span.start.line) ++ ":" ++ padRight 3 (toString t.span.start.column) ++ " " ++
    padRight 12 t.content.name ++ " " ++ Text.quoted t.lexeme ++ "\n"

def isFault (t : Token) : Bool := t.content matches .fault _

def tokens (disk : Disk) (file : String) : Completion :=
  withSource disk file fun text =>
    let all := tokenize text (some file)
    .exit (if all.any isFault then 1 else 0) { output := "".intercalate (all.map tokenLine), disk }

def bindings : List (Entry String) → Except String (List (String × Plain))
  | [] => .ok []
  | .void :: _ => .error (paramComplaint "[]")
  | .value s :: rest =>
    match param? s with
    | none => .error (paramComplaint s)
    | some entry => (bindings rest).map (entry :: ·)

def terminalHost (s : Surroundings) (root : String) : Host :=
  let path := UserPath.ofText root
  let bus : Bus Listener := {}
  let bus := (bus.subscribe "script:output" (.printer "")).2
  let bus := (bus.subscribe "notification:show" (.printer "[notify] ")).2
  { bus
    files := .sandbox { disk := s.disk, root := Place.follow path.origin path.steps }
    dialogs := { mode := .console }
    clock := { startMillis := s.startMillis, mode := .timed }
    console := { input := s.input.toList } }

def diskOf (h : Host) (old : Disk) : Disk :=
  match h.files with
  | .sandbox s => s.disk
  | .memory _ => old

def conclude (output : String) (disk : Disk) (r : Report) : Completion :=
  match r.ending with
  | .completed v =>
    match r.heap.plain v with
    | .null => .exit 0 { output, disk }
    | p => .exit 0 { output := output ++ "Result: " ++ p.shown ++ "\n", disk }
  | .failed e => .exit 1 { output, errors := e.diagnostic.format ++ "\n", disk }
  | .cancelled _ => .exit 1 { output, errors := "Script cancelled\n", disk }
  | .broken f => .crash f { output, disk }

def configuration (s : Surroundings) : Option (Entry String) → Except ConfigFault Config
  | none => Config.load s.disk s.configPath none
  | some (.value path) => Config.load s.disk s.configPath (some path)
  | some .void => .error (.fault .listAsPath)

def launch (s : Surroundings) (config : Config) (root : String) (script : Launch) : Completion :=
  let w : World := { desk := { host := terminalHost s root }, config }
  let (id, w) := w.runScript script
  let host := w.desk.host
  let disk := diskOf host s.disk
  match w.outcome id with
  | .error f => .crash f { output := host.console.output, disk }
  | .ok report => conclude host.console.output disk report

/-- Runs a script. Of what is wrong, the configuration comes first, then the script, its variables, the root and the
time limit. -/
def runScript (s : Surroundings) (file : String) (p : Parsed) : Completion :=
  match configuration s p.config with
  | .error (.fault f) => .crash f { disk := s.disk }
  | .error e => .complained s.disk ("Error: " ++ e.message)
  | .ok config =>
    withSource s.disk file fun source =>
      match bindings p.vars with
      | .error complaint => .complained s.disk ("Error: " ++ complaint)
      | .ok given =>
        match p.root, p.timeout with
        | .void, _ => .crash .listAsPath { disk := s.disk }
        | .value _, some .void => .crash .listAsNumber { disk := s.disk }
        | .value root, none => launch s config root { source, bindings := given, file := some file }
        | .value root, some (.value timeout) =>
          launch s config root { source, bindings := given, timeout := some timeout, file := some file }

def execute (s : Surroundings) (args : List String) : Completion :=
  match task args with
  | .error u => .usage u
  | .ok (.check file) => check s.disk file
  | .ok (.tokens file) => tokens s.disk file
  | .ok (.outline file) => outline s.disk file
  | .ok (.run file p) => runScript s file p

end DeskScript.CommandLine
