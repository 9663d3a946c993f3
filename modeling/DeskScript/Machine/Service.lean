import DeskScript.Machine.Run
import DeskScript.Text.Case

set_option autoImplicit false

/-!
# Services at work

A service goes forward one step at a time. Its first step does what can be done at once; a command may let others run
before it answers, and a dialog, a timer or an awaited event parks the service until it is woken.
-/

namespace DeskScript

def ServiceResult.ofReply : Except Fault Plain → ServiceResult
  | .ok p => .data p
  | .error f => .failed (.fault f)

namespace Desk

def recordDialog (d : Desk) (kind : DialogKind) (message : String) : Desk :=
  { d with host := { d.host with
      dialogs := { d.host.dialogs with messages := d.host.dialogs.messages.push (kind, message) } } }

def recordCommand (d : Desk) (name : String) (args : Plain) : Desk :=
  { d with host := { d.host with commands := d.host.commands.record name args } }

def presetAnswer (confirm : Bool) (prompt : Option String) (default : String) : DialogKind → Plain
  | .alert => .null
  | .confirm => .bool confirm
  | .prompt => .str (prompt.getD default)

def dialogText (kind : DialogKind) (message default : String) : String :=
  match kind with
  | .alert => "[alert] " ++ message ++ "\nPress Enter to continue..."
  | .confirm => "[confirm] " ++ message ++ " [y/N] "
  | .prompt => "[prompt] " ++ message ++ (if default.isEmpty then "" else " [" ++ default ++ "]") ++ " "

def typedAnswer (kind : DialogKind) (default : String) (line : Except Fault String) : Except Fault Plain :=
  match kind, line with
  | .alert, .ok _ => .ok .null
  | .confirm, .ok s =>
    let word := Text.lower (Text.trimmed s)
    .ok (.bool (word = "y" || word = "yes"))
  | .prompt, .ok s => .ok (.str (if s.isEmpty then default else s))
  | .prompt, .error _ => .ok .null
  | _, .error f => .error f

def beginDialog (d : Desk) (id : ServiceId) (kind : DialogKind) (message default : String) : Desk :=
  match d.host.dialogs.mode with
  | .headless confirm prompt =>
    (d.recordDialog kind message).complete id (.data (presetAnswer confirm prompt default kind))
  | .failing =>
    d.complete id (.failed (.fault (if kind = .prompt then .broken "dialog crashed" else .refused "no display")))
  | .pending =>
    let d := d.recordDialog kind message
    if kind = .alert then d.complete id (.data .null)
    else { d with dialogs := d.dialogs ++ [id] }.setStage id .parked
  | .console =>
    let (line, console) := (d.host.console.print (dialogText kind message default)).readLine
    { d with host := { d.host with console },
             typed := d.typed ++ [(id, typedAnswer kind default line)] }.setStage id .parked

def beginSleep (d : Desk) (id : ServiceId) (ms : Time) : Desk :=
  match d.host.clock.mode with
  | .stepped =>
    ({ d with host := { d.host with clock := d.host.clock.after ms } }.setStage id .slept).enqueue (.service id)
  | .timed =>
    if ms.takesTime then
      { d with timers := d.timers ++ [(d.host.clock.seconds.after ms, id)] }.setStage id .parked
    else (d.setStage id .slept).enqueue (.service id)

end Desk

namespace Run

def answerCommand (r : Run) (d : Desk) (id : ServiceId) (answer : CommandAnswer) (args : Plain) : Run × Desk :=
  match (d.service id).work with
  | .request q =>
    match q.finish r.heap (answer.reply args) with
    | .ok (v, heap) => ({ r with heap }, d.complete id (.value v))
    | .error e => (r, d.complete id (.failed e))
  | _ => (r, d.complete id (ServiceResult.ofReply (answer.reply args)))

def tickCommand (r : Run) (d : Desk) (id : ServiceId) (ticks : Nat) (answer : CommandAnswer) (args : Plain) :
    Run × Desk :=
  match ticks with
  | 0 => r.answerCommand d id answer args
  | left + 1 => (r, (d.setStage id (.ticking left answer args)).enqueue (.service id))

def beginCommand (r : Run) (d : Desk) (id : ServiceId) (name : String) (args : Plain) : Run × Desk :=
  let spec := d.host.commands.spec name
  r.tickCommand (d.recordCommand name args) id spec.ticks spec.answer args

def beginService (r : Run) (d : Desk) (id : ServiceId) : Work → Run × Desk
  | .dialog kind message default => (r, d.beginDialog id kind message default)
  | .command name args => r.beginCommand d id name args
  | .request q =>
    let (name, args) := q.resolve r.heap
    r.beginCommand d id name args
  | .sleep ms => (r, d.beginSleep id ms)
  | .idle =>
    if r.governor.idle then (r, d.complete id (.data .null))
    else
      ({ r with governor := { r.governor with waiters := r.governor.waiters ++ [id] } }, d.setStage id .parked)
  | .join =>
    if (d.box r.id).unfinished = 0 then (r, d.complete id (.data .null))
    else (r, (d.modifyBox r.id fun b => { b with joiners := b.joiners ++ [id] }).setStage id .parked)

/-- One step of a service of the run. An interrupted service ends here. -/
def stepService (r : Run) (d : Desk) (id : ServiceId) : Run × Desk :=
  let s := d.service id
  match s.cancelled, s.stage with
  | _, .done _ => (r, d)
  | true, _ => (r, d.complete id .interrupted)
  | false, .fresh => r.beginService d id s.work
  | false, .ticking left answer args => r.tickCommand d id left answer args
  | false, .slept => (r, d.complete id (.data .null))
  | false, .woken reply => (r, d.complete id (ServiceResult.ofReply reply))
  | false, .parked => (r, d)

end Run

end DeskScript
