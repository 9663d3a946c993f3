import DeskScript.Host.Bus
import DeskScript.Host.Calendar
import DeskScript.Host.Disk
import DeskScript.Host.Files
import DeskScript.Host.State
import DeskScript.Host.Time
import DeskScript.Scope
import DeskScript.Syntax.Tree

set_option autoImplicit false

/-!
# The host

The collaborators of running scripts: state, commands, the event bus, files, dialogs, the clock, random numbers and the
environment, together with what they have recorded.
-/

namespace DeskScript

inductive CommandAnswer where
  | give (p : Plain)
  | echo
  | fail (reason : String)

/-- A command: it lets others run a number of times, and then answers. -/
structure CommandSpec where
  ticks : Nat := 0
  answer : CommandAnswer

/-- The catalogue of commands. An unknown command is recorded and answers null, or fails if the catalogue is strict. -/
structure Commands where
  specs : Dict CommandSpec := []
  strict : Bool := false
  history : Array (String × Plain) := #[]

namespace Commands

def record (c : Commands) (name : String) (args : Plain) : Commands :=
  { c with history := c.history.push (name, args) }

def spec (c : Commands) (name : String) : CommandSpec :=
  match c.specs.get? name with
  | some s => s
  | none => { answer := if c.strict then .fail ("unknown command '" ++ name ++ "'") else .give .null }

end Commands

def CommandAnswer.reply (a : CommandAnswer) (args : Plain) : Except Fault Plain :=
  match a with
  | .give p => .ok p
  | .echo => .ok args
  | .fail reason => .error (.refused reason)

inductive DialogMode where
  /-- Preset answers; without one, a prompt gives its default. -/
  | headless (confirm : Bool) (prompt : Option String)
  /-- No display. -/
  | failing
  /-- Confirmations and prompts stay open until they are answered from outside. -/
  | pending
  /-- A terminal. -/
  | console

inductive DialogKind where
  | alert | confirm | prompt
  deriving DecidableEq

def DialogKind.name : DialogKind → String
  | alert => "alert" | confirm => "confirm" | prompt => "prompt"

structure Dialogs where
  mode : DialogMode := .headless true none
  messages : Array (DialogKind × String) := #[]

/-- How time passes: waiting may move the clock at once, or end when its time has come. -/
inductive ClockMode where
  | stepped | timed
  deriving DecidableEq

structure Clock where
  startMillis : Float := 1700000000000
  seconds : Time := 0
  mode : ClockMode := .stepped

namespace Clock

def now (c : Clock) : Float := c.startMillis + c.seconds.toFloat * 1000

def after (c : Clock) (ms : Time) : Clock := { c with seconds := c.seconds.after ms }

end Clock

structure RandomSource where
  draws : Array Float := #[0.5]
  next : Nat := 0

def RandomSource.draw (r : RandomSource) : Float × RandomSource :=
  (r.draws.getD (r.next % r.draws.size) 0, { r with next := r.next + 1 })

structure Console where
  input : List Char := []
  output : String := ""

namespace Console

def print (c : Console) (s : String) : Console := { c with output := c.output ++ s }

def readLine (c : Console) : Except Fault String × Console :=
  match c.input with
  | [] => (.error .endOfInput, c)
  | cs =>
    let line := cs.takeWhile (· ≠ '\n')
    (.ok (String.ofList line), { c with input := cs.drop (line.length + 1) })

end Console

inductive FileStore where
  | memory (m : MemoryFiles)
  | sandbox (s : Sandbox)

namespace FileStore

def changed (r : Unit × MemoryFiles) : FileStore := memory r.2

def read : FileStore → String → Except Fault String
  | memory m, path => Prod.fst <$> (MemoryFiles.read path).outcome m
  | sandbox s, path => s.read path

def write : FileStore → String → String → Except Fault FileStore
  | memory m, path, content => changed <$> (MemoryFiles.write path content).outcome m
  | sandbox s, path, content => sandbox <$> s.write path content

def mkdir : FileStore → String → Except Fault FileStore
  | memory m, path => changed <$> (MemoryFiles.mkdir path).outcome m
  | sandbox s, path => sandbox <$> s.mkdir path

def delete : FileStore → String → Except Fault FileStore
  | memory m, path => changed <$> (MemoryFiles.delete path).outcome m
  | sandbox s, path => sandbox <$> s.delete path

def exists_ : FileStore → String → Except Fault Bool
  | memory m, path => Prod.fst <$> (MemoryFiles.exists_ path).outcome m
  | sandbox s, path => s.exists_ path

end FileStore

abbrev RunId := Nat

/-- Who listens to events: a handler of a script, a recorder of the host, or the terminal, which prints messages. -/
inductive Listener where
  | handler (run : RunId) (body : Block Stmt) (scope : ScopeId)
  | recorder
  | printer (lead : String)

structure Host where
  state : State := {}
  commands : Commands := {}
  bus : Bus Listener := {}
  files : FileStore := .memory {}
  dialogs : Dialogs := {}
  clock : Clock := {}
  random : RandomSource := {}
  environment : Dict String := []
  console : Console := {}
  /-- The texts given to each call of `debug`. -/
  debugged : Array (List String) := #[]
  /-- Every published event. -/
  published : Array Event := #[]
  /-- Events that reached a recorder. -/
  received : Array Event := #[]

end DeskScript
