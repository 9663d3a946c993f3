import DeskScript.Dict
import DeskScript.Host.Path
import DeskScript.Script.Fault

set_option autoImplicit false

/-!
# Files in memory

Files and directories by normal path. A file brings the directories above it into being; a directory can be removed when
no file is below it.
-/

namespace DeskScript

structure MemoryFiles where
  files : Dict String := []
  directories : List String := ["C:"]
  deriving DecidableEq

/-- A procedure on files in memory. What it has changed before it fails stays changed. -/
abbrev FileProcedure := EStateM Fault MemoryFiles

def FileProcedure.outcome {α : Type} (p : FileProcedure α) (m : MemoryFiles) : Except Fault (α × MemoryFiles) :=
  match p.run m with
  | .ok a m => .ok (a, m)
  | .error f _ => .error f

namespace MemoryFiles

def hasDirectory (m : MemoryFiles) (key : String) : Bool := m.directories.contains key

def addDirectories : Nat → String → List String → List String
  | 0, _, ds => ds
  | fuel + 1, key, ds =>
    if key.isEmpty then ds
    else addDirectories fuel (Path.parent key) (if ds.contains key then ds else ds ++ [key])

def withDirectory (m : MemoryFiles) (key : String) : MemoryFiles :=
  { m with directories := addDirectories (key.length + 1) key m.directories }

def read (path : String) : FileProcedure String := do
  match (← get).files.get? (Path.normalize path) with
  | some content => return content
  | none => throw (.refused ("file not found: " ++ path))

def write (path content : String) : FileProcedure Unit := do
  let key := Path.normalize path
  if (← get).hasDirectory key then throw (.refused ("is a directory: " ++ path))
  modify fun m => m.withDirectory (Path.parent key)
  modify fun m => { m with files := m.files.insert key content }

def mkdir (path : String) : FileProcedure Unit := do
  let key := Path.normalize path
  if (← get).files.contains key then throw (.refused ("file exists: " ++ path))
  modify fun m => m.withDirectory key

def delete (path : String) : FileProcedure Unit := do
  let key := Path.normalize path
  if (← get).files.contains key then
    modify fun m => { m with files := m.files.erase key }
  else if (← get).hasDirectory key then
    let lead := (key ++ "/").toList
    if (← get).files.keys.any fun f => lead.isPrefixOf f.toList then
      throw (.refused ("directory not empty: " ++ path))
    modify fun m => { m with directories := m.directories.filter (· ≠ key) }
  else throw (.refused ("file not found: " ++ path))

def exists_ (path : String) : FileProcedure Bool := do
  let key := Path.normalize path
  return (← get).files.contains key || (← get).hasDirectory key

def ofList (files : List (String × String)) : Except Fault MemoryFiles :=
  Prod.snd <$> (files.forM fun (path, content) => write path content).outcome {}

end MemoryFiles

end DeskScript
