import DeskScript.Number.Read

set_option autoImplicit false

/-!
# Arguments of the command line

A command, its file and its options. Long options may be shortened and may carry their value after an equals sign; short
options may carry it directly. After two dashes everything is a plain word. A text that looks like a negative number or
holds a blank is a plain word too. Two dashes that an option carries as its value leave it without one.
-/

namespace DeskScript.CommandLine

inductive Usage where
  | help | wrong
  deriving DecidableEq

inductive OptionKey where
  | help | var | timeout | config | root | logLevel
  deriving DecidableEq

def OptionKey.takesValue : OptionKey → Bool
  | help => false
  | var | timeout | config | root | logLevel => true

abbrev Options := List (String × OptionKey)

def helpOptions : Options := [("-h", .help), ("--help", .help)]

def runOptions : Options :=
  helpOptions ++
  [("-v", .var), ("--var", .var), ("-t", .timeout), ("--timeout", .timeout), ("-c", .config), ("--config", .config),
   ("--root", .root), ("--log-level", .logLevel)]

/-- What an argument is at first sight. An option that is not known has no key. -/
inductive Shape where
  | word
  | separator
  | option (key : Option OptionKey) (attached : Option String)

def isLineEnd (cs : List Char) : Bool := cs.isEmpty || cs = ['\n']

def isNegativeNumber (cs : List Char) : Bool :=
  match cs with
  | '-' :: rest =>
    let (whole, rest) := Number.takeDigits rest
    match rest with
    | '.' :: rest =>
      let (fraction, rest) := Number.takeDigits rest
      !fraction.isEmpty && isLineEnd rest
    | rest => !whole.isEmpty && isLineEnd rest
  | _ => false

def splitEquals (cs : List Char) : List Char × Option (List Char) :=
  let name := cs.takeWhile (· ≠ '=')
  match cs.drop name.length with
  | [] => (name, none)
  | _ :: value => (name, some value)

/-- The options that an argument may stand for: names that it begins, or a short name that it begins with. -/
def candidates (options : Options) (cs : List Char) : List (OptionKey × Option String) :=
  match cs with
  | '-' :: '-' :: _ =>
    let (start, value) := splitEquals cs
    (options.filter fun (name, _) => start.isPrefixOf name.toList).map fun (_, key) =>
      (key, value.map String.ofList)
  | _ =>
    options.filterMap fun (name, key) =>
      if name.toList = cs.take 2 then some (key, some (String.ofList (cs.drop 2)))
      else if cs.isPrefixOf name.toList then some (key, none)
      else none

def assigned? (options : Options) (cs : List Char) : Option (OptionKey × String) :=
  match splitEquals cs with
  | (name, some value) =>
    (options.lookup (String.ofList name)).map fun key => (key, String.ofList value)
  | _ => none

def shape (options : Options) (arg : String) : Except Usage Shape :=
  let cs := arg.toList
  if arg = "--" then .ok .separator
  else if cs.head? ≠ some '-' || cs.length = 1 then .ok .word
  else
    match options.lookup arg, assigned? options cs, candidates options cs with
    | some key, _, _ => .ok (.option (some key) none)
    | none, some (key, value), _ => .ok (.option (some key) (some value))
    | none, none, [(key, value)] => .ok (.option (some key) value)
    | none, none, _ :: _ :: _ => .error .wrong
    | none, none, [] =>
      if isNegativeNumber cs || cs.contains ' ' then .ok .word else .ok (.option none none)

def shapes (options : Options) : List String → Except Usage (List (String × Shape))
  | [] => .ok []
  | arg :: rest => do
    match ← shape options arg with
    | .separator => return (arg, .separator) :: rest.map fun a => (a, .word)
    | s => return (arg, s) :: (← shapes options rest)

/-- What short options written together after one that asks for help lead to. Each of them must be known; one that takes
a value has the letters after it for that, or else the next word. -/
def cluster (options : Options) (valueFollows : Bool) : List Char → Usage
  | [] => .help
  | c :: rest =>
    match options.lookup (String.ofList ['-', c]) with
    | none => .wrong
    | some key =>
      if key.takesValue then (if rest.isEmpty && !valueFollows then .wrong else .help)
      else cluster options valueFollows rest

/-- What an argument that asks for help leads to. Help takes no value: what is attached to its short name is read as
more short options, and nothing may be attached to its long name. -/
def helpUsage (options : Options) (arg : String) (attached : Option String) (valueFollows : Bool) : Usage :=
  match attached with
  | none => .help
  | some text => if text.isEmpty || arg.startsWith "--" then .wrong else cluster options valueFollows text.toList

inductive Entry (α : Type) where
  | value (a : α)
  /-- Two dashes are there in place of a value. -/
  | void

def Entry.ofText (s : String) : Entry String := if s = "--" then .void else .value s

structure Parsed where
  file : Option String := none
  vars : List (Entry String) := []
  timeout : Option (Entry Float) := none
  config : Option (Entry String) := none
  root : Entry String := .value "."
  logLevel : Option (Entry String) := none
  /-- Something was left over. -/
  surplus : Bool := false

def logChoices : List String := ["DEBUG", "INFO", "WARNING", "ERROR"]

def Parsed.store (p : Parsed) (key : OptionKey) (text : String) : Except Usage Parsed :=
  let entry := Entry.ofText text
  match key, entry with
  | .help, _ => .error .help
  | .var, _ => .ok { p with vars := p.vars ++ [entry] }
  | .config, _ => .ok { p with config := some entry }
  | .root, _ => .ok { p with root := entry }
  | .timeout, .void => .ok { p with timeout := some .void }
  | .timeout, .value s =>
    match Number.ofText? s with
    | some x => .ok { p with timeout := some (.value x) }
    | none => .error .wrong
  | .logLevel, .void => .ok { p with logLevel := some .void }
  | .logLevel, .value s => if logChoices.contains s then .ok { p with logLevel := some entry } else .error .wrong

def wordFollows : List (String × Shape) → Bool
  | (_, .word) :: _ => true
  | _ => false

/-- Reads arguments in order. The first word is the file; a separator belongs to a file beside it. -/
def Parsed.read (options : Options) (p : Parsed) : List (String × Shape) → Except Usage Parsed
  | [] => .ok p
  | (file, .word) :: (separator, .separator) :: rest =>
    if p.file.isNone then Parsed.read options { p with file := some file } rest
    else Parsed.read options { p with surplus := true } ((separator, .separator) :: rest)
  | (arg, .word) :: rest =>
    Parsed.read options (if p.file.isNone then { p with file := some arg } else { p with surplus := true }) rest
  | (_, .separator) :: rest => Parsed.read options (if p.file.isNone then p else { p with surplus := true }) rest
  | (_, .option none _) :: rest => Parsed.read options { p with surplus := true } rest
  | (arg, .option (some .help) attached) :: rest => .error (helpUsage options arg attached (wordFollows rest))
  | (_, .option (some key) (some value)) :: rest => do Parsed.read options (← p.store key value) rest
  | (_, .option (some key) none) :: (value, .word) :: rest => do Parsed.read options (← p.store key value) rest
  | (_, .option (some _) none) :: _ => .error .wrong

inductive Task where
  | check (file : String)
  | tokens (file : String)
  | outline (file : String)
  | run (file : String) (options : Parsed)

inductive CommandName where
  | check | tokens | outline | run

namespace CommandName

def ofText? : String → Option CommandName
  | "check" => some check
  | "tokens" => some tokens
  | "ast" => some outline
  | "run" => some run
  | _ => none

def options : CommandName → Options
  | run => runOptions
  | check | tokens | outline => helpOptions

def task (c : CommandName) (file : String) (p : Parsed) : Task :=
  match c with
  | check => .check file
  | tokens => .tokens file
  | outline => .outline file
  | run => .run file p

def read (c : CommandName) (args : List String) : Except Usage Task := do
  let p ← Parsed.read c.options {} (← shapes c.options args)
  match p.file with
  | none => .error .wrong
  | some file => if p.surplus then .error .wrong else return c.task file p

end CommandName

/-- Reads all arguments. Options before the command may only ask for help; a command's own request for help comes before
the complaint about an unknown option in front of it. -/
def task : List String → Except Usage Task
  | [] => .error .wrong
  | arg :: rest => do
    match ← shape helpOptions arg with
    | .word =>
      match CommandName.ofText? arg with
      | none => .error .wrong
      | some c => c.read rest
    | .separator => .error .wrong
    | .option none _ =>
      match task rest with
      | .error .help => .error .help
      | _ => .error .wrong
    | .option (some _) attached => .error (helpUsage helpOptions arg attached false)

end DeskScript.CommandLine
