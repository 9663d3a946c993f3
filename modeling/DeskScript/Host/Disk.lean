import DeskScript.Host.Path
import DeskScript.Script.Fault
import DeskScript.Text.Lines

set_option autoImplicit false

/-!
# A disk with directories, and a sandbox on it

A disk is a tree of directories and files, kept as a list of entries by path. A script reaches the part below a root:
`C:/a/b` is `C/a/b` there, and a path that leaves the root is refused.
-/

namespace DeskScript

/-- The steps from the top of a disk. A place above the top begins with two points, one reached from elsewhere with a
slash. -/
abbrev Place := List String

inductive DiskNode where
  | file (content : String)
  | directory

inductive DiskFault where
  | missing | isDirectory | notDirectory | notEmpty | exists_ | nameTooLong
  deriving DecidableEq

def DiskFault.message : DiskFault → String
  | missing => "No such file or directory"
  | isDirectory => "Is a directory"
  | notDirectory => "Not a directory"
  | notEmpty => "Directory not empty"
  | exists_ => "File exists"
  | nameTooLong => "File name too long"

/-- Entries by place. The top, and what lies above it, are always directories. -/
structure Disk where
  entries : List (Place × DiskNode) := []

def Place.isAbove (p : Place) : Bool := p.all fun step => step = ".." || step = "/"

def Place.move (p : Place) (step : String) : Place :=
  if step = "" || step = "." then p
  else if step = ".." then
    if p = ["/"] then p else if p.isAbove then p ++ [".."] else p.dropLast
  else p ++ [step]

def Place.follow (from_ : Place) (steps : List String) : Place := steps.foldl Place.move from_

namespace Disk

def node? (d : Disk) (p : Place) : Option DiskNode :=
  if p.isAbove then some .directory else d.entries.lookup p

def isDirectory (d : Disk) (p : Place) : Bool := d.node? p matches some .directory

def isFile (d : Disk) (p : Place) : Bool := d.node? p matches some (.file _)

def present (d : Disk) (p : Place) : Bool := (d.node? p).isSome

def blocked (d : Disk) (p : Place) : Bool := (List.range p.length).any fun n => d.isFile (p.take n)

def longName (p : Place) : Bool := p.any fun name => 255 < name.utf8ByteSize

def absence (d : Disk) (p : Place) : DiskFault :=
  if longName p then .nameTooLong else if d.blocked p then .notDirectory else .missing

def put (d : Disk) (p : Place) (node : DiskNode) : Disk :=
  ⟨d.entries.filter (·.1 ≠ p) ++ [(p, node)]⟩

def remove (d : Disk) (p : Place) : Disk := ⟨d.entries.filter (·.1 ≠ p)⟩

def makeDirectories (d : Disk) (p : Place) : Except DiskFault Disk :=
  if longName p then .error .nameTooLong
  else if d.blocked p then .error .notDirectory
  else if d.isFile p then .error .exists_
  else
    .ok ((List.range (p.length + 1)).foldl (fun d n =>
      let above := p.take n
      if d.present above then d else d.put above .directory) d)

def read (d : Disk) (p : Place) : Except DiskFault String :=
  match d.node? p with
  | some (.file content) => .ok content
  | some .directory => .error .isDirectory
  | none => .error (d.absence p)

def write (d : Disk) (p : Place) (content : String) : Except DiskFault Disk := do
  let d ← d.makeDirectories p.dropLast
  if d.isDirectory p then .error .isDirectory
  else if longName p then .error .nameTooLong
  else return d.put p (.file content)

def delete (d : Disk) (p : Place) : Except DiskFault Disk :=
  match d.node? p with
  | some (.file _) => .ok (d.remove p)
  | some .directory =>
    if d.entries.any fun (q, _) => p.isPrefixOf q && q ≠ p then .error .notEmpty else .ok (d.remove p)
  | none => .error (d.absence p)

/-- The place that steps lead to, or why they lead nowhere: every step starts from a directory and ends at something. -/
def locate (d : Disk) (from_ : Place) (steps : List String) : Except DiskFault Place :=
  steps.foldlM (fun p step =>
    let next := Place.move p step
    if !d.isDirectory p then .error .notDirectory
    else if longName [step] then .error .nameTooLong
    else if d.present next then .ok next
    else .error .missing) from_

def listing (d : Disk) : List (String × Option String) :=
  let inside := d.entries.filter fun (p, _) => p.head? ≠ some ".." && p.head? ≠ some "/"
  (inside.mergeSort fun a b => !decide (b.1 < a.1)).map fun
    | (p, .file content) => ("/".intercalate p, some content)
    | (p, .directory) => ("/".intercalate p ++ "/", none)

def ofList (files : List (String × String)) : Except DiskFault Disk :=
  files.foldlM (fun d (path, content) => d.write (Place.follow [] (Text.splitAtChar '/' path)) content) {}

end Disk

/-- Where a path begins. The top written with two slashes is the same place as with one, but keeps its writing. -/
inductive PathStart where
  | here | home | top | doubleTop
  deriving DecidableEq

def PathStart.ofText (s : String) : PathStart :=
  match (s.toList.takeWhile (· = '/')).length with
  | 0 => .here
  | 2 => .doubleTop
  | _ => .top

structure UserPath where
  start : PathStart
  steps : List String

namespace UserPath

def ofText (s : String) : UserPath :=
  { start := .ofText s
    steps := (Text.splitAtChar '/' s).filter fun step => step ≠ "" && step ≠ "." }

def text (p : UserPath) : String :=
  let body := "/".intercalate p.steps
  match p.start with
  | .top => "/" ++ body
  | .doubleTop => "//" ++ body
  | .home => if body.isEmpty then "~" else "~/" ++ body
  | .here => if body.isEmpty then "." else body

def name (p : UserPath) : String := p.steps.getLastD ""

/-- A tilde at the head of a path stands for the home directory; the home of another user is unknown. -/
def expandHome (p : UserPath) : Except Fault UserPath :=
  match p.start, p.steps with
  | .here, first :: rest =>
    if first = "~" then .ok { start := .home, steps := rest }
    else if first.startsWith "~" then .error (.broken "Could not determine home directory.")
    else .ok p
  | _, _ => .ok p

def origin (p : UserPath) : Place :=
  match p.start with
  | .top | .doubleTop => ["/"]
  | .here | .home => []

def sizeLimit : Nat := 4095

def locate (p : UserPath) (d : Disk) : Except DiskFault Place :=
  if p.steps.any fun step => step.toList.any (·.toNat = 0) then .error .missing
  else if sizeLimit < p.text.utf8ByteSize then .error .nameTooLong
  else d.locate p.origin p.steps

end UserPath

structure Sandbox where
  disk : Disk
  root : Place

namespace Sandbox

def steps (path : String) : List String :=
  match Path.parts path with
  | [] => []
  | first :: rest =>
    if first.endsWith ":" then String.ofList first.toList.dropLast :: rest else first :: rest

def contains (s : Sandbox) (p : Place) : Bool := s.root.isPrefixOf p && (p.drop s.root.length).head? ≠ some ".."

def resolve (s : Sandbox) (path : String) : Except Fault Place :=
  if path.toList.any (·.toNat = 0) then .error .nullInPath
  else
    let p := Place.follow s.root (steps path)
    if s.contains p then .ok p else .error (.refused ("path escapes sandbox: " ++ path))

def report {α : Type} (task path : String) : Except DiskFault α → Except Fault α
  | .ok a => .ok a
  | .error f => .error (.refused ("cannot " ++ task ++ " " ++ path ++ ": " ++ f.message))

def read (s : Sandbox) (path : String) : Except Fault String := do
  let content ← report "read" path (s.disk.read (← s.resolve path))
  return Text.asRead content

def write (s : Sandbox) (path content : String) : Except Fault Sandbox := do
  let disk ← report "write" path (s.disk.write (← s.resolve path) content)
  return { s with disk }

def mkdir (s : Sandbox) (path : String) : Except Fault Sandbox := do
  let disk ← report "create directory" path (s.disk.makeDirectories (← s.resolve path))
  return { s with disk }

def delete (s : Sandbox) (path : String) : Except Fault Sandbox := do
  let disk ← report "delete" path (s.disk.delete (← s.resolve path))
  return { s with disk }

def exists_ (s : Sandbox) (path : String) : Except Fault Bool := do
  return s.disk.present (← s.resolve path)

end Sandbox

end DeskScript
