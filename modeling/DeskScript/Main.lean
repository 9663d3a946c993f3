import DeskScript.CommandLine.Basic
import Std.Time.DateTime

set_option autoImplicit false

/-!
# The program

Reads the files that a command needs into a disk, carries the command out, writes back what it changed, and prints what
it printed.
-/

namespace DeskScript.Main

open CommandLine

def placeOf (path : String) : Place :=
  let p := UserPath.ofText path
  Place.follow p.origin p.steps

def pathOf (p : Place) : String :=
  match p with
  | "/" :: rest => "/" ++ "/".intercalate rest
  | p => "/".intercalate p

def addFile (d : Disk) (path : String) : IO Disk := do
  try
    let content ← IO.FS.readFile path
    match d.write (placeOf path) content with
    | .ok d => return d
    | .error _ => return d
  catch _ => return d

partial def addDirectory (d : Disk) (path : String) : IO Disk := do
  try
    let entries ← (← IO.FS.realPath path).readDir
    let mut d := match d.makeDirectories (placeOf path) with
      | .ok d => d
      | .error _ => d
    for e in entries do
      let inner := path ++ "/" ++ e.fileName
      if ← e.path.isDir then d ← addDirectory d inner else d ← addFile d inner
    return d
  catch _ => return d

def writeBack (before after : Disk) : IO Unit := do
  for (p, node) in after.entries do
    match node, before.node? p with
    | .directory, none => IO.FS.createDirAll (pathOf p)
    | .file content, some (.file old) => if content ≠ old then IO.FS.writeFile (pathOf p) content
    | .file content, _ => IO.FS.writeFile (pathOf p) content
    | _, _ => pure ()
  for (p, node) in before.entries.mergeSort fun a b => a.1.length ≥ b.1.length do
    if (after.node? p).isNone then
      match node with
      | .file _ => IO.FS.removeFile (pathOf p)
      | .directory => IO.FS.removeDir (pathOf p)

def userConfig : IO (Option String) := do
  if let some named ← IO.getEnv "RETROSCRIPT_CONFIG" then
    if !named.isEmpty then return some named
  match ← IO.getEnv "HOME" with
  | none => return none
  | some home =>
    let path := pathOf (placeOf (home ++ "/" ++ "/".intercalate Config.defaultPath.steps))
    try
      let _ ← IO.FS.readFile path
      return some path
    catch _ => return none

def surroundings (args : List String) : IO Surroundings := do
  match task args with
  | .error _ => return {}
  | .ok (.check file) | .ok (.tokens file) | .ok (.outline file) => return { disk := ← addFile {} file }
  | .ok (.run file p) =>
    let configPath ← userConfig
    let mut disk ← addFile {} file
    if let .value root := p.root then disk ← addDirectory disk root
    if let some (.value path) := p.config then disk ← addFile disk path
    if let some path := configPath then disk ← addFile disk path
    let input ← (← IO.getStdin).readToEnd
    let now ← Std.Time.Timestamp.now
    return { disk, configPath, input, startMillis := Float.ofInt now.toMillisecondsSinceUnixEpoch.val }

def usageText : String :=
  "usage: retroscript check|tokens|ast FILE\n" ++
  "       retroscript run FILE [-v NAME=VALUE] [-t SECONDS] [-c FILE] [--root DIR] [--log-level LEVEL]\n"

def release (before : Disk) (t : Trace) : IO Unit := do
  writeBack before t.disk
  IO.print t.output
  IO.eprint t.errors

end DeskScript.Main

open DeskScript in
def main (args : List String) : IO UInt32 := do
  let s ← Main.surroundings args
  match CommandLine.execute s args with
  | .usage .help =>
    IO.print Main.usageText
    return 0
  | .usage .wrong =>
    IO.eprint Main.usageText
    return 2
  | .exit code trace =>
    Main.release s.disk trace
    return code.toUInt32
  | .crash f trace =>
    Main.release s.disk trace
    IO.eprintln f.message
    return 1
