import DeskScript.Builtin.Signature
import DeskScript.Host.Basic

set_option autoImplicit false

/-!
# Functions that reach the host

State, time, random numbers and the environment answer at once. `exec` and `query` make a request to the command
catalogue, which is read from its arguments when the request begins.
-/

namespace DeskScript

inductive DeskFn where
  | random | now | time | date | debug | getState | setState | exec | getEnv | getWindows | getApps | query
  | getStorage | setStorage
  deriving DecidableEq

inductive Request where
  | exec (command : Value) (payload : Option Value)
  | query (topic : Value) (args : List Value)

def Request.resolve (r : Request) (h : Heap) : String × Plain :=
  match r with
  | exec command payload =>
    (h.display command, match payload with
      | some p => h.plain p
      | none => .dict [])
  | query topic args => ("query:" ++ h.display topic, .dict [("args", .list (args.map h.plain))])

def Request.name : Request → String
  | exec .. => "exec"
  | query .. => "query"

def Request.failure (r : Request) (f : Fault) : Failure := .because (.collaborator (r.name ++ "()") f.message)

def Request.finish (r : Request) (h : Heap) (reply : Except Fault Plain) : Except Failure (Value × Heap) :=
  match reply with
  | .error f => .error (r.failure f)
  | .ok p =>
    match h.ofPlain p with
    | .ok result => .ok result
    | .error f => .error (r.failure f)

inductive Reply where
  | answer (a : Answer)
  | request (r : Request)

structure Reached where
  result : Except Failure Reply
  heap : Heap
  host : Host

namespace DeskFn

def table : List (String × DeskFn) :=
  [("random", random), ("now", now), ("time", time), ("date", date), ("debug", debug), ("getState", getState),
   ("setState", setState), ("exec", exec), ("getEnv", getEnv), ("getWindows", getWindows), ("getApps", getApps),
   ("query", query), ("getStorage", getStorage), ("setStorage", setStorage)]

def signature (f : DeskFn) : Signature :=
  let s : Signature := match f with
    | random => .between 0 2 [.number]
    | now | time | date | getWindows | getApps => .exactly 0 []
    | debug => .atLeast 0 [.any]
    | getState | getStorage => .exactly 1 [.text]
    | setState | setStorage => .exactly 2 [.text, .any]
    | exec => .between 1 2 [.text, .object]
    | getEnv => .between 0 1 [.text]
    | query => .atLeast 1 [.text, .any]
  { s with needsHost := f ≠ debug }

def millis (host : Host) : Except Failure Int :=
  let now := host.clock.now
  if now.isNaN then .error (.fault .integerOfNaN)
  else if now.isInf then .error (.fault .integerOfInfinity)
  else .ok (Number.floored now)

def pick (r : Float) (low high : Int) : Except Failure Float :=
  match Number.ofInt? (high - low + 1) with
  | none => .error (.fault .integerTooLarge)
  | some span =>
    match Number.ofInt? (low + Number.floored (r * span)) with
    | none => .error (.fault .integerTooLarge)
    | some x => .ok x

def bounds : List Value → Except Failure (Option (Int × Int))
  | [] => .ok none
  | [.num a] => do
    let a ← Builtin.intArgument "random" a
    return some (min a 0, max a 0)
  | .num a :: .num b :: _ => do
    let a ← Builtin.intArgument "random" a
    let b ← Builtin.intArgument "random" b
    return some (min a b, max a b)
  | _ => .ok none

def environmentOf (host : Host) : Except Failure (Dict Plain) := do
  let now ← millis host
  let base : Dict Plain :=
    [("platform", .str "RetrOS"), ("version", .str "5.0"), ("language", .str "RetroScript"), ("timestamp", .int now)]
  return base.insertAll (host.environment.map fun (k, v) => (k, .str v))

/-- Some fields of each item of a list in the state; an item that is no mapping counts as its own id. -/
def summaries (host : Host) (path : String) (fields : List String) : Except Failure Plain :=
  match host.state.get path with
  | .error f => .error (.fault f)
  | .ok p =>
    if p.isPresent then
      match p with
      | .list items =>
        .ok (.list (items.map fun
          | .dict entries =>
            .dict (fields.filterMap fun k => (Dict.get? entries k).map fun v => (k, v))
          | item => .dict [("id", item)]))
      | _ => .error (.because (.stateNotList path))
    else .ok (.list [])

def storagePath (h : Heap) (key : Value) : String := "storage." ++ h.display key

def reading (h : Heap) (host : Host) (p : Except Failure Plain) : Reached :=
  match p with
  | .error e => ⟨.error e, h, host⟩
  | .ok p =>
    match h.ofPlain p with
    | .ok (v, h) => ⟨.ok (.answer (.value v)), h, host⟩
    | .error f => ⟨.error (.fault f), h, host⟩

def plainly (h : Heap) (host : Host) (v : Except Failure Value) : Reached :=
  ⟨v.map fun v => .answer (.value v), h, host⟩

def stateAt (host : Host) (path : String) : Except Failure Plain :=
  match host.state.get path with
  | .ok p => .ok p
  | .error f => .error (.fault f)

def momentOf (host : Host) : Except Failure Calendar.Moment :=
  match Calendar.moment (host.clock.now / 1000) with
  | .ok m => .ok m
  | .error f => .error (.fault f)

def writing (h : Heap) (host : Host) (path : String) (v : Value) (a : Answer) : Reached :=
  ⟨.ok (.answer a), h, { host with state := host.state.set path (h.plain v) }⟩

def apply (f : DeskFn) (h : Heap) (host : Host) (args : List Value) : Reached :=
  match f, args with
  | random, args =>
    match bounds args with
    | .error e => ⟨.error e, h, host⟩
    | .ok limits =>
      let drawn := host.random.draw
      let result : Except Failure Float := match limits with
        | none => .ok drawn.1
        | some (low, high) => pick drawn.1 low high
      plainly h { host with random := drawn.2 } (result.map Value.num)
  | now, _ => plainly h host (do
      match Number.ofInt? (← millis host) with
      | some x => return .num x
      | none => .error (.fault .integerTooLarge))
  | time, _ => plainly h host ((momentOf host).map fun m => .str m.timeText)
  | date, _ => plainly h host ((momentOf host).map fun m => .str m.dateText)
  | debug, args => plainly h { host with debugged := host.debugged.push (args.map h.display) } (.ok .null)
  | getState, [path] => reading h host (stateAt host (h.display path))
  | setState, [path, v] => writing h host (h.display path) v (.argument 1)
  | getStorage, [key] => reading h host (stateAt host (storagePath h key))
  | setStorage, [key, v] => writing h host (storagePath h key) v (.value (.bool true))
  | exec, command :: rest => ⟨.ok (.request (.exec command rest.head?)), h, host⟩
  | query, topic :: args => ⟨.ok (.request (.query topic args)), h, host⟩
  | getEnv, args =>
    reading h host (do
      let known ← environmentOf host
      match args with
      | name :: _ => return (known.get? (h.display name)).getD .null
      | [] => return .dict known)
  | getWindows, _ => reading h host (summaries host "windows" ["id", "appId", "title", "minimized", "maximized"])
  | getApps, _ => reading h host (summaries host "apps" ["id", "name", "category"])
  | _, _ => plainly h host (.ok .null)

end DeskFn

end DeskScript
