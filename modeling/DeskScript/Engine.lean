import DeskScript.Machine.World
import DeskScript.Syntax.Statement

set_option autoImplicit false

/-!
# The engine

Starting, awaiting and stopping scripts, scripts from files, and the boot script. A run announces itself with an event
when it starts and when it ends.
-/

namespace DeskScript

structure Launch where
  source : String
  bindings : List (String × Plain) := []
  name : Option String := none
  timeout : Option Float := none
  file : Option String := none

structure Report where
  ending : Ending
  output : Array String := #[]
  heap : Heap := {}

namespace World

def nameFor (w : World) (given : Option String) : String × World :=
  match given with
  | some name => if name.isEmpty then numbered else (name, w)
  | none => numbered
where
  numbered : String × World := ("script_" ++ toString w.nextName, { w with nextName := w.nextName + 1 })

def declareAll (r : Run) (bindings : List (String × Plain)) : Except Fault Run :=
  (Dict.insertAll [] bindings).foldlM (fun r (name, p) =>
    match r.heap.ofPlain p with
    | .ok (v, heap) => .ok { r with heap, scopes := r.scopes.declare 0 name v }
    | .error f => .error f) r

def addRun (w : World) (r : Run) : World :=
  { w with runs := w.runs.push r, desk := { w.desk with boxes := w.desk.boxes.push {} } }

/-- Starts a script. One that does not parse has ended at once; variables that have no value are a fault. -/
def start (w : World) (l : Launch) : Except Fault RunId × World :=
  let (name, w) := w.nameFor l.name
  let id := w.runs.size
  let origin := match l.file with
    | some f => if f.isEmpty then "inline" else f
    | none => "inline"
  let w := w.publish ⟨"script:execute", .dict [("scriptId", .str name), ("source", .str origin)]⟩
  let limits := w.config.limits.withTimeout l.timeout
  let blank : Run := { id, name, program := none, limits, startedAt := w.desk.host.clock.seconds, holds := w.holds }
  match parse l.source l.file with
  | .error e =>
    let r := { blank with ending := some (.failed e) }
    let w := match r.report? (.failed e) with
      | some event => w.publish event
      | none => w
    (.ok id, w.addRun r)
  | .ok program =>
    match declareAll { blank with program := some program } l.bindings with
    | .error f => (.error f, w)
    | .ok r =>
      let w := w.addRun r
      (.ok id, { w with desk := w.desk.enqueue (.thread id .main), running := w.running.insert name id })

def report? (w : World) (id : RunId) : Option Report :=
  let r := w.run id
  r.ending.map fun ending => { ending, output := r.output, heap := r.heap }

def runScript (w : World) (l : Launch) : Except Fault RunId × World :=
  let (id, w) := w.start l
  match id with
  | .ok id => (.ok id, w.waitFor id)
  | .error f => (.error f, w)

def outcome (w : World) (id : Except Fault RunId) : Except Fault Report :=
  match id with
  | .error f => .error f
  | .ok id =>
    match w.report? id with
    | none => .error (.broken "unfinished")
    | some report =>
      match report.ending with
      | .broken f => .error f
      | _ => .ok report

def runFile (w : World) (path : String) (bindings : List (String × Plain)) (timeout : Option Float) :
    Except Fault Report × World :=
  match w.desk.host.files.read path with
  | .error (.refused reason) => (.ok { ending := .failed { cause := .scriptNotLoaded reason } }, w)
  | .error f => (.error f, w)
  | .ok source =>
    let (id, w) := w.runScript { source, bindings, timeout, file := some path }
    (w.outcome id, w)

/-- Stops a run: its subscriptions end at once, the run itself at its next step. -/
def cancel (w : World) (id : RunId) : World :=
  let r := w.run id
  if r.program.isNone || r.ending.isSome then w
  else
    let (r, desk) := r.cancelled w.desk
    let (r, desk) := r.revoke desk
    { w with desk }.setRun id r

def stopAll (w : World) : Nat × World := (w.running.length, w.running.values.foldl cancel w)

/-- The first of some paths at which a file exists; a path that the files refuse is passed over. -/
def firstExisting (files : FileStore) : List String → Except Fault (Option String)
  | [] => .ok none
  | path :: rest =>
    match files.exists_ path with
    | .ok true => .ok (some path)
    | .ok false | .error (.refused _) => firstExisting files rest
    | .error f => .error f

def findAutoexec (w : World) : Except Fault (Option String) := firstExisting w.desk.host.files w.config.autoexecPaths

def autoexecEvent (path : String) (now : Float) (ending : Ending) : Event :=
  match ending with
  | .completed _ =>
    ⟨"autoexec:complete", .dict [("path", .str path), ("success", .bool true), ("timestamp", .float now)]⟩
  | .failed e | .cancelled e =>
    ⟨"autoexec:error", .dict [("path", .str path), ("error", .str e.message), ("timestamp", .float now)]⟩
  | .broken f =>
    ⟨"autoexec:error", .dict [("path", .str path), ("error", .str f.message), ("timestamp", .float now)]⟩

def runAutoexec (w : World) : Except Fault (Option Report) × World :=
  match w.findAutoexec with
  | .error f => (.error f, w)
  | .ok none => (.ok none, w)
  | .ok (some path) =>
    let now := w.desk.host.clock.now
    let w := w.publish ⟨"autoexec:start", .dict [("path", .str path), ("timestamp", .float now)]⟩
    let bindings := [("AUTOEXEC", Plain.bool true), ("BOOT_TIME", .float now)]
    let (result, w) := w.runFile path bindings (some w.config.autoexecTimeout)
    match result with
    | .error f => (.error f, w)
    | .ok report => (.ok (some report), w.publish (autoexecEvent path w.desk.host.clock.now report.ending))

def sampleAutoexec : String :=
  "# RetrOS autoexec script\n" ++
  "# Runs automatically when the system boots.\n" ++
  "\n" ++
  "print Welcome to RetrOS!\n" ++
  "notify RetrOS startup complete!\n" ++
  "play notify\n" ++
  "\n" ++
  "set $bootTime = call now\n" ++
  "print Boot time: $bootTime\n" ++
  "\n" ++
  "# Launch an application on boot:\n" ++
  "# launch calculator\n" ++
  "\n" ++
  "print Autoexec complete!\n"

def createAutoexec (w : World) (path : Option String) (content : Option String) : Except Fault World := do
  let content := match content with
    | some c => if c.isEmpty then sampleAutoexec else c
    | none => sampleAutoexec
  let files ← w.desk.host.files.write (path.getD (defaultAutoexecPaths.headD "")) content
  return { w with desk := { w.desk with host := { w.desk.host with files } } }

end World

end DeskScript
