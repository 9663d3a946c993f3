import DeskScript.Machine.Run

set_option autoImplicit false

/-!
# Commands of a script

What a command does once its operands have values: it is done at once, it fails, or it waits for a collaborator. A
failing collaborator is an error of the script that names the task.
-/

namespace DeskScript

inductive Act where
  | nothing
  | raised (r : Raised)
  | ask (work : Work) (task : String) (after : After)

def Raised.collaborator (task : String) (f : Fault) : Raised := .error { cause := .collaborator task f.message }

namespace Run

def print (r : Run) (d : Desk) (line : String) : Run × Desk :=
  ({ r with output := r.output.push line },
    d.publish ⟨"script:output", .dict [("scriptId", .str r.name), ("message", .str line)]⟩)

def changeFiles (d : Desk) (task : String) (change : FileStore → Except Fault FileStore) : Desk × Act :=
  match change d.host.files with
  | .ok files => ({ d with host := { d.host with files } }, .nothing)
  | .error f => (d, .raised (.collaborator task f))

/-- The window that was opened last, as the state tells it: a mapping stands for its id. -/
def lastWindow (d : Desk) : Except Raised (Option Plain) :=
  match d.host.state.get "windows" with
  | .error f => .error (.collaborator "reading windows" f)
  | .ok windows =>
    if !windows.isPresent then .ok none
    else
      match windows with
      | .list items =>
        match items.getLast? with
        | some (.dict entries) => .ok (Dict.get? entries "id")
        | last => .ok last
      | .str s => .ok (s.toList.getLast?.map fun c => .str c.toString)
      | .dict _ => .error (.fault (.missingKey "-1"))
      | p => .error (.fault (.notIndexable p.typeName))

def closeWindow (window : Plain) : Act :=
  .ask (.command "window:close" (.dict [("windowId", window)])) "close" .nothing

/-- Waits, but not beyond the budget: then the wait ends with the time limit. -/
def waitFor (r : Run) (d : Desk) (ms : Float) : Act :=
  let left := (r.remaining d.host.clock.seconds).millis
  if .rounded ms > left then .ask (.sleep left) "wait" .timeout else .ask (.sleep (.rounded ms)) "wait" .nothing

def waitMillis (r : Run) : Option Value → Except Raised Float
  | none => .ok 1000
  | some (.num x) =>
    if x.isNaN then .error (.error { cause := .waitDuration (numberText x) }) else .ok (if x > 0 then x else 0)
  | some v => .error (.error { cause := .waitDuration (r.heap.display v) })

def command (r : Run) (d : Desk) (scope : ScopeId) : Command Value → Run × Desk × Act
  | .alert m => (r, d, .ask (.dialog .alert (r.heap.display m) "") "alert" .nothing)
  | .notify m => (r, d.publish ⟨"notification:show", .dict [("message", .str (r.heap.display m))]⟩, .nothing)
  | .confirm m into => (r, d, .ask (.dialog .confirm (r.heap.display m) "") "confirm" (.storeTruth into scope))
  | .prompt m default into =>
    let default := match default with
      | some v => r.heap.display v
      | none => ""
    (r, d, .ask (.dialog .prompt (r.heap.display m) default) "prompt" (.storeText into scope))
  | .write content path =>
    let path := r.heap.display path
    (r, changeFiles d ("write " ++ path) fun files => files.write path (r.heap.display content))
  | .read path into =>
    let path := r.heap.display path
    match d.host.files.read path with
    | .ok content => (r.assign scope into (.str content), d, .nothing)
    | .error f => (r, d, .raised (.collaborator ("read " ++ path) f))
  | .mkdir path =>
    let path := r.heap.display path
    (r, changeFiles d ("mkdir " ++ path) fun files => files.mkdir path)
  | .delete path =>
    let path := r.heap.display path
    (r, changeFiles d ("delete " ++ path) fun files => files.delete path)
  | .launch app params =>
    let params := match params with
      | some v => r.heap.plain v
      | none => .dict []
    let args : Plain := .dict [("appId", .str (r.heap.display app)), ("params", params)]
    (r, d, .ask (.command "app:launch" args) "launch" .nothing)
  | .close (some target) => (r, d, closeWindow (.str (r.heap.display target)))
  | .close none =>
    match lastWindow d with
    | .error e => (r, d, .raised e)
    | .ok none => (r, d, .nothing)
    | .ok (some .null) => (r, d, .nothing)
    | .ok (some window) => (r, d, closeWindow window)
  | .wait duration =>
    match r.waitMillis duration with
    | .error e => (r, d, .raised e)
    | .ok ms => (r, d, r.waitFor d ms)
  | .window action target =>
    let args : Plain := .dict [("windowId", .str (r.heap.display target))]
    (r, d, .ask (.command ("window:" ++ action.name) args) action.name .nothing)
  | .play sound => (r, d.publish ⟨"sound:play", .dict [("type", .str (r.heap.display sound))]⟩, .nothing)
  | .other name args =>
    (r, d, .ask (.command name (.dict [("args", r.heap.plain args)])) ("command '" ++ name ++ "'") .nothing)

end Run

end DeskScript
