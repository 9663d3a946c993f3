import DeskScript.Builtin.Basic
import DeskScript.Machine.Command

set_option autoImplicit false

/-!
# Steps of a thread

One step takes a thread from its control to the next, with the run and the desk it changes. Steps that need no waiting
follow each other in a slice; a slice ends when the thread yields, parks or is over. Before every statement and every turn
of a loop the governor is asked for leave.
-/

namespace DeskScript

inductive Pace where
  | go
  /-- It is ready, behind all others that are. -/
  | yield
  /-- It waits to be woken. -/
  | park
  | finished
  deriving DecidableEq

structure Step where
  run : Run
  desk : Desk
  thread : Thread
  pace : Pace

namespace Step

def go (r : Run) (d : Desk) (control : Control) (stack : List Frame) : Step := ⟨r, d, ⟨control, stack⟩, .go⟩

def raise (r : Run) (d : Desk) (e : Raised) (stack : List Frame) : Step := go r d (.raised e) stack

def fail (r : Run) (d : Desk) (cause : Cause) (stack : List Frame) : Step := raise r d (.error { cause }) stack

def value (r : Run) (d : Desk) (v : Value) (stack : List Frame) : Step := go r d (.value v) stack

def ended (r : Run) (d : Desk) (stack : List Frame) : Step := go r d (.ended none) stack

def valueOr (r : Run) (d : Desk) (result : Except Failure Value) (stack : List Frame) : Step :=
  match result with
  | .ok v => value r d v stack
  | .error e => raise r d (Raised.ofFailure e) stack

end Step

namespace Run

/-- Goes on with a frame more on the stack, if the stack of the interpreter has room for it. -/
def descend (r : Run) (d : Desk) (control : Control) (frame : Frame) (stack : List Frame) : Step :=
  if r.holds (frame :: stack) then .go r d control (frame :: stack) else .raise r d (.fault .stackExhausted) stack

def literal : Literal → Value
  | .null => .null
  | .bool b => .bool b
  | .number x => .num x
  | .text s => .str s

def followKeys (r : Run) (v : Value) : List String → Except Failure Value
  | [] => .ok v
  | key :: rest =>
    match r.heap.getProperty v (.str key) with
    | .ok v => r.followKeys v rest
    | .error e => .error e

/-- The text of a template. A name that no scope declares stands as it is written. -/
def template (r : Run) (scope : ScopeId) : List Segment → Except Failure String
  | [] => .ok ""
  | .text s :: rest => (r.template scope rest).map (s ++ ·)
  | .reference name keys :: rest =>
    match r.scopes.lookup? scope name with
    | none => (r.template scope rest).map (".".intercalate (("$" ++ name) :: keys) ++ ·)
    | some v =>
      match r.followKeys v keys with
      | .error e => .error e
      | .ok v => (r.template scope rest).map (r.heap.display v ++ ·)

def callRoutine (r : Run) (d : Desk) (f : Routine) (args : List Value) (stack : List Frame) : Step :=
  if args.length ≠ f.params.length then .fail r d (.arity f.name (toString f.params.length) args.length) stack
  else if (r.callDepth : Int) ≥ r.limits.maxCallDepth then
    .fail r d (.callDepth r.limits.maxCallDepth f.name) stack
  else if r.holds (.call f.name :: stack) then
    let (scope, r) := r.extend f.closure ("call " ++ f.name) true (Dict.insertAll [] (f.params.zip args))
    .go { r with callDepth := r.callDepth + 1 } d (.statements f.body.statements scope) (.call f.name :: stack)
  else .raise r d (.fault .stackExhausted) stack

def invoke (r : Run) (d : Desk) (name : String) (args : List Value) (stack : List Frame) : Step :=
  match r.functions.get? name with
  | some f => r.callRoutine d f args stack
  | none =>
    let reached := Builtin.call name r.heap d.host args
    let r := { r with heap := reached.heap }
    let d := { d with host := reached.host }
    match reached.result with
    | .error e => .raise r d (Raised.ofFailure e) stack
    | .ok (.answer a) => .value r d (a.resolve args) stack
    | .ok (.request q) => .go r d (.request (.request q)) (.requested :: stack)

def evaluate (r : Run) (d : Desk) (scope : ScopeId) (stack : List Frame) : Expr → Step
  | .literal _ l => .value r d (literal l) stack
  | .var _ name =>
    match r.scopes.lookup? scope name with
    | some v => .value r d v stack
    | none => .fail r d (.undefinedVariable name) stack
  | .binary _ op left right => r.descend d (.evaluate left scope) (.left op right scope) stack
  | .logic _ op left right => r.descend d (.evaluate left scope) (.logic op right scope) stack
  | .unary _ op operand => r.descend d (.evaluate operand scope) (.unary op) stack
  | .call _ name [] => r.invoke d name [] stack
  | .call _ name (first :: rest) => r.descend d (.evaluate first scope) (.arguments name [] rest scope) stack
  | .array _ [] =>
    let (v, heap) := r.heap.newArray #[]
    .value { r with heap } d v stack
  | .array _ (first :: rest) => r.descend d (.evaluate first scope) (.elements [] rest scope) stack
  | .object _ [] =>
    let (v, heap) := r.heap.newObject []
    .value { r with heap } d v stack
  | .object _ ((key, first) :: rest) => r.descend d (.evaluate first scope) (.entries [] key rest scope) stack
  | .template _ segments => .valueOr r d ((r.template scope segments).map .str) stack
  | .property _ base key => r.descend d (.evaluate base scope) (.base key scope) stack

def nextTurn (r : Run) (d : Desk) (loop : Loop) (body : Block Stmt) (scope : ScopeId) (stack : List Frame) : Step :=
  match loop with
  | .counted i n => if i < n then .go r d .checkpoint (.turn loop body scope :: stack) else .ended r d stack
  | .conditional .. => .go r d .checkpoint (.turn loop body scope :: stack)
  | .each _ [] _ _ => .ended r d stack
  | .each _ (_ :: _) _ _ => .go r d .checkpoint (.turn loop body scope :: stack)

def runTurn (r : Run) (d : Desk) (next : Loop) (body : Block Stmt) (scope : ScopeId) (label : String)
    (bindings : Dict Value) (stack : List Frame) : Step :=
  let (inner, r) := r.extend scope label false bindings
  .go r d (.statements body.statements inner) (.round next body scope :: stack)

def takeTurn (r : Run) (d : Desk) (loop : Loop) (body : Block Stmt) (scope : ScopeId) (stack : List Frame) : Step :=
  match loop with
  | .counted i n => r.runTurn d (.counted (i + 1) n) body scope "loop" [("i", Value.ofNat i)] stack
  | .conditional i condition => .go r d (.evaluate condition scope) (.test i condition body scope :: stack)
  | .each i (v :: rest) item index =>
    let bindings : Dict Value := match index with
      | none => [(item, v)]
      | some index => Dict.insert [(item, v)] index (Value.ofNat i)
    r.runTurn d (.each (i + 1) rest item index) body scope "foreach" bindings stack
  | .each _ [] _ _ => .ended r d stack

def runCommand (r : Run) (d : Desk) (scope : ScopeId) (c : Command Value) (stack : List Frame) : Step :=
  let (r, d, act) := r.command d scope c
  match act with
  | .nothing => .ended r d stack
  | .raised e => .raise r d e stack
  | .ask work task after => .go r d (.request work) (.collaborator task after :: stack)

def evaluateOperands (r : Run) (d : Desk) (c : Command Expr) (given : List Value) (left : List Expr) (scope : ScopeId)
    (stack : List Frame) : Step :=
  match left with
  | e :: rest => .go r d (.evaluate e scope) (.operands c given rest scope :: stack)
  | [] =>
    match c.fill? given.reverse with
    | some c => r.runCommand d scope c stack
    | none => .ended r d stack

def perform (r : Run) (d : Desk) (scope : ScopeId) (stack : List Frame) : Stmt → Step
  | .assign _ (.var _ name) value => .go r d (.evaluate value scope) (.assignVar name scope :: stack)
  | .assign _ (.property _ base key) value => .go r d (.evaluate base scope) (.assignBase key value scope :: stack)
  | .print _ message => .go r d (.evaluate message scope) (.print :: stack)
  | .branch _ condition yes no => .go r d (.evaluate condition scope) (.branch yes no scope :: stack)
  | .counted _ body count => .go r d (.evaluate count scope) (.count body scope :: stack)
  | .conditional _ body condition => r.nextTurn d (.conditional 0 condition) body scope stack
  | .foreach _ item iterable body index => .go r d (.evaluate iterable scope) (.items item index body scope :: stack)
  | .leave _ => .go r d (.ended (some .leave)) stack
  | .skip _ => .go r d (.ended (some .skip)) stack
  | .giveBack _ none => .go r d (.ended (some (.back .null))) stack
  | .giveBack _ (some e) => .go r d (.evaluate e scope) (.giveBack :: stack)
  | .define _ name params body => .ended (r.define name params body scope) d stack
  | .command _ c => r.evaluateOperands d c [] (c.operands.map (·.2)) scope stack
  | .attempt _ tryBlock catchBlock errorVar =>
    let (inner, r) := r.extend scope "try" false []
    .go r d (.statements tryBlock.statements inner) (.attempt catchBlock errorVar scope :: stack)
  | .on _ event body => .go r d (.evaluate event scope) (.subscribe body scope :: stack)
  | .emit _ event payload => .go r d (.evaluate event scope) (.emitName payload scope :: stack)
  | .evaluate _ e => .go r d (.evaluate e scope) (.discard :: stack)

def turns (count : Value) : Except Cause Nat :=
  match count with
  | .num x => if x.isFinite then .ok (Number.truncated x).toNat else .error (.loopCountInfinite (numberText x))
  | v => .error (.loopCountKind v.kind)

def iterated (h : Heap) : Value → Except Cause (List Value)
  | .arr id => .ok (h.items id).toList
  | .obj id => .ok ((h.fields id).keys.map .str)
  | .str s => .ok (s.toList.map fun c => .str c.toString)
  | v => .error (.notIterable v.kind)

def subscribe (r : Run) (d : Desk) (pattern : String) (body : Block Stmt) (scope : ScopeId) : Run × Desk :=
  let (token, bus) := d.host.bus.subscribe pattern (.handler r.id body scope)
  ({ r with subscriptions := r.subscriptions ++ [token] }, { d with host := { d.host with bus } })

def giveValue (r : Run) (d : Desk) (v : Value) (stack : List Frame) : Frame → Step
  | .assignVar name scope => .ended (r.assign scope name v) d stack
  | .assignBase key value scope => .go r d (.evaluate key scope) (.assignKey v value scope :: stack)
  | .assignKey base value scope => .go r d (.evaluate value scope) (.assignValue base v :: stack)
  | .assignValue base key =>
    match r.heap.setProperty base key v with
    | .ok heap => .ended { r with heap } d stack
    | .error e => .raise r d (Raised.ofFailure e) stack
  | .print =>
    let (r, d) := r.print d (r.heap.display v)
    .ended r d stack
  | .branch yes no scope =>
    if r.heap.truthy v then
      let (inner, r) := r.extend scope "if" false []
      .go r d (.statements yes.statements inner) stack
    else
      match no with
      | none => .ended r d stack
      | some no =>
        let (inner, r) := r.extend scope "else" false []
        .go r d (.statements no.statements inner) stack
  | .count body scope =>
    match turns v with
    | .ok n => r.nextTurn d (.counted 0 n) body scope stack
    | .error cause => .fail r d cause stack
  | .items item index body scope =>
    match iterated r.heap v with
    | .ok vs => r.nextTurn d (.each 0 vs item index) body scope stack
    | .error cause => .fail r d cause stack
  | .giveBack => .go r d (.ended (some (.back v))) stack
  | .operands c given left scope => r.evaluateOperands d c (v :: given) left scope stack
  | .subscribe body scope =>
    let (r, d) := r.subscribe d (r.heap.display v) body scope
    .ended r d stack
  | .emitName none _ => .ended r (d.publish ⟨r.heap.display v, .null⟩) stack
  | .emitName (some payload) scope =>
    .go r d (.evaluate payload scope) (.emitPayload (r.heap.display v) :: stack)
  | .emitPayload name => .ended r (d.publish ⟨name, r.heap.plain v⟩) stack
  | .discard => .ended r d stack
  | .test i condition body scope =>
    if !r.heap.truthy v then .ended r d stack
    else if (i : Int) ≥ r.limits.maxLoopIterations then .fail r d (.loopLimit r.limits.maxLoopIterations) stack
    else r.runTurn d (.conditional (i + 1) condition) body scope "while" [] stack
  | .left op right scope => .go r d (.evaluate right scope) (.right op v :: stack)
  | .right op left =>
    match r.heap.binary op left v with
    | .ok (v, heap) => .value { r with heap } d v stack
    | .error e => .raise r d (Raised.ofFailure e) stack
  | .logic op right scope =>
    match op, r.heap.truthy v with
    | .and, false => .value r d (.bool false) stack
    | .or, true => .value r d (.bool true) stack
    | _, _ => .go r d (.evaluate right scope) (.truth :: stack)
  | .truth => .value r d (.bool (r.heap.truthy v)) stack
  | .unary op => .valueOr r d (r.heap.unary op v) stack
  | .base key scope => .go r d (.evaluate key scope) (.key v :: stack)
  | .key base => .valueOr r d (r.heap.getProperty base v) stack
  | .arguments name given [] _ => r.invoke d name (v :: given).reverse stack
  | .arguments name given (e :: rest) scope =>
    .go r d (.evaluate e scope) (.arguments name (v :: given) rest scope :: stack)
  | .elements given [] _ =>
    let (v, heap) := r.heap.newArray (v :: given).reverse.toArray
    .value { r with heap } d v stack
  | .elements given (e :: rest) scope => .go r d (.evaluate e scope) (.elements (v :: given) rest scope :: stack)
  | .entries given key [] _ =>
    let (v, heap) := r.heap.newObject (given.insert key v)
    .value { r with heap } d v stack
  | .entries given key ((next, e) :: rest) scope =>
    .go r d (.evaluate e scope) (.entries (given.insert key v) next rest scope :: stack)
  | _ => .value r d v stack

/-- Whether a thread yields after the statements begun so far; an interval of zero has no answer. -/
def yields (r : Run) : Except Fault Bool :=
  if r.limits.yieldInterval = 0 then .error .intervalZero
  else .ok ((r.governor.begun : Int) % r.limits.yieldInterval = 0)

def checkpoint (r : Run) (d : Desk) (stack : List Frame) : Step :=
  match r.objection? d.host.clock.seconds with
  | some e => .raise r d e stack
  | none =>
    let r := { r with governor := { r.governor with begun := r.governor.begun + 1 } }
    match r.yields with
    | .error f => .raise r d (.fault f) stack
    | .ok true => ⟨r, d, ⟨.recheck, stack⟩, .yield⟩
    | .ok false => .go r d .clear stack

def recheck (r : Run) (d : Desk) (stack : List Frame) : Step :=
  match r.objection? d.host.clock.seconds with
  | some e => .raise r d e stack
  | none => .go r d .clear stack

/-- Waits until no handler is busy, unless this thread runs it. -/
def waitClear (r : Run) (d : Desk) (side : Side) (stack : List Frame) : Step :=
  if r.isClear side then .go r d .passed stack else .go r d (.request .idle) (.clearing :: stack)

def pass (r : Run) (d : Desk) (stack : List Frame) : Frame → Step
  | .entering s scope => .go r d (.perform s scope) stack
  | .turn loop body scope => r.takeTurn d loop body scope stack
  | _ => .ended r d stack

/-- Opens a service and waits for it. A handler that waits lets the main thread go on. -/
def request (r : Run) (d : Desk) (side : Side) (work : Work) (stack : List Frame) : Step :=
  match r.objection? d.host.clock.seconds with
  | some e => .raise r d e stack
  | none =>
    let (id, d) := d.open_ r.id side work
    let r := { r with governor := { r.governor with pending := r.governor.pending ++ [id] } }
    let releases := side = .worker
    let (r, d) := if releases then r.becomeIdle d else (r, d)
    ⟨r, d, ⟨.resume id releases, stack⟩, .park⟩

def resume (r : Run) (d : Desk) (id : ServiceId) (releases interrupted : Bool) (stack : List Frame) : Step :=
  let g := r.governor
  let r := { r with governor := { g with pending := g.pending.erase id, idle := g.idle && !(releases && g.handling) } }
  if interrupted then .raise r d r.interruption stack
  else
    match (d.service id).stage with
    | .done .interrupted => .raise r d r.interruption stack
    | .done result => .go r d (.replied result) stack
    | _ => .raise r d r.interruption stack

def follow (r : Run) (d : Desk) (after : After) (p : Plain) (stack : List Frame) : Step :=
  match after with
  | .nothing => .ended r d stack
  | .storeTruth into scope => .ended (r.assign scope into (.bool p.isPresent)) d stack
  | .storeText into scope =>
    let v := match p with
      | .null => Value.null
      | p => .str p.printed
    .ended (r.assign scope into v) d stack
  | .timeout => .raise r d (.error r.timeoutError) stack

def cancelWorker (r : Run) (d : Desk) : Run × Desk :=
  match r.worker.control with
  | .finished => (r, d.enqueue (.gathered r.id))
  | .resume id _ =>
    match (d.service id).stage with
    | .done _ => ({ r with workerCancelled := true }, d)
    | _ => (r, d.interrupt id)
  | _ =>
    let waiting := (d.box r.id).waiting
    let d := d.modifyBox r.id fun b => { b with waiting := false }
    ({ r with workerCancelled := true }, if waiting then d.enqueue (.thread r.id .worker) else d)

/-- The main thread has come to its end: the run closes and waits for its worker to end. -/
def close (r : Run) (d : Desk) (ending : Ending) : Step :=
  let d := d.modifyBox r.id fun b => { b with closed := true }
  let (r, d) := r.revoke d
  let (r, d) := r.cancelled d
  let (r, d) := r.cancelWorker d
  ⟨{ r with gathering := true }, d, ⟨.settle ending, []⟩, .park⟩

def endingOf : Raised → Ending
  | .error e => if e.cause.category = .cancelled then .cancelled e else .failed e
  | .abort e => .failed e
  | .fault f => .broken f
  | .interrupted => .cancelled { cause := .cancelled }

def retire (r : Run) (d : Desk) : Step :=
  ⟨r, if r.gathering then d.enqueue (.gathered r.id) else d, ⟨.finished, []⟩, .finished⟩

/-- A handler has ended. A failure aborts the run, cancellation does not, and a fault ends the worker. -/
def leaveHandler (r : Run) (d : Desk) (result : Except Raised Unit) : Step :=
  let next (r : Run) (d : Desk) : Step :=
    let (r, d) := r.handlerFinished d
    .go r d .receive []
  match result with
  | .ok () => next r d
  | .error (.error e) =>
    if e.cause.category = .cancelled then next r d
    else
      let (r, d) := r.aborted d e
      next r d
  | .error (.abort e) =>
    let (r, d) := r.aborted d e
    next r d
  | .error (.fault _) | .error .interrupted =>
    let (r, d) := r.handlerFinished d
    r.retire d

def endBlock (r : Run) (d : Desk) (signal : Option Signal) (stack : List Frame) : Frame → Step
  | .following stmts scope =>
    match signal with
    | none => .go r d (.statements stmts scope) stack
    | some s => .go r d (.ended (some s)) stack
  | .round loop body scope =>
    match signal with
    | some .leave => .ended r d stack
    | some (.back v) => .go r d (.ended (some (.back v))) stack
    | some .skip | none => r.nextTurn d loop body scope stack
  | .call _ =>
    let r := { r with callDepth := r.callDepth - 1 }
    .value r d (match signal with | some (.back v) => v | _ => .null) stack
  | .handler => r.leaveHandler d (.ok ())
  | .program =>
    .go r d (.request .join) (.closing (match signal with | some (.back v) => v | _ => .null) :: stack)
  | _ => .go r d (.ended signal) stack

def catchError (r : Run) (d : Desk) (e : ScriptError) (catchBlock : Block Stmt) (errorVar : Option String)
    (scope : ScopeId) (stack : List Frame) : Step :=
  let bindings : Dict Value := match errorVar with
    | none => []
    | some name => [(name, .str e.message)]
  let (inner, r) := r.extend scope "catch" false bindings
  .go r d (.statements catchBlock.statements inner) stack

def unwind (r : Run) (d : Desk) (e : Raised) (stack : List Frame) : Frame → Step
  | .located span =>
    match e with
    | .error e => .raise r d (.error (r.locate span e)) stack
    | .abort e => .raise r d (.abort (r.locate span e)) stack
    | e => .raise r d e stack
  | .attempt catchBlock errorVar scope =>
    match e with
    | .error e =>
      if e.cause.category.catchable then r.catchError d e catchBlock errorVar scope stack
      else .raise r d (.error e) stack
    | e => .raise r d e stack
  | .call name =>
    let r := { r with callDepth := r.callDepth - 1 }
    match e with
    | .fault .stackExhausted => .fail r d (.stackDepth name) stack
    | e => .raise r d e stack
  | .handler => r.leaveHandler d (.error e)
  | .program | .closing _ => r.close d (endingOf e)
  | _ => .raise r d e stack

def reply (r : Run) (d : Desk) (result : ServiceResult) (stack : List Frame) : Frame → Step
  | .collaborator task after =>
    match result with
    | .data p => r.follow d after p stack
    | .failed (.fault f) => .raise r d (.collaborator task f) stack
    | .failed (.script e) => .raise r d (.error e) stack
    | .value _ | .interrupted => .ended r d stack
  | .requested =>
    match result with
    | .value v => .value r d v stack
    | .failed e => .raise r d (Raised.ofFailure e) stack
    | .data _ | .interrupted => .value r d .null stack
  | .clearing => .go r d .clear stack
  | .closing v =>
    match r.governor.aborted with
    | some e => r.close d (endingOf (.abort e))
    | none => r.close d (.completed v)
  | _ => .ended r d stack

def receive (r : Run) (d : Desk) : Step :=
  let box := d.box r.id
  if box.closed then r.retire d
  else
    match box.mail.pop? with
    | none => ⟨r, d.modifyBox r.id fun b => { b with waiting := true }, ⟨.receive, []⟩, .park⟩
    | some (mail, rest) =>
      let d := d.modifyBox r.id fun b => { b with mail := rest }
      let r := r.handlerStarted
      match r.heap.ofPlain mail.event.payload with
      | .error f => .raise r d (.fault f) [.handler]
      | .ok (v, heap) =>
        let (scope, r) := { r with heap }.extend mail.scope "handler" false
          [("event", v), ("eventName", .str mail.event.name)]
        .go r d (.statements mail.body.statements scope) [.handler]

/-- The first step of a thread: the main thread brings its worker into being and starts the program. -/
def begin (r : Run) (d : Desk) : Side → Step
  | .main =>
    let stmts := match r.program with
      | some p => p.statements
      | none => []
    .go (r.hoist stmts) (d.enqueue (.thread r.id .worker)) (.statements stmts 0) [.program]
  | .worker => .go r d .receive []

def settle (r : Run) (d : Desk) (ending : Ending) : Step :=
  let d := match r.report? ending with
    | some event => d.publish event
    | none => d
  ⟨{ r with ending := some ending }, d, ⟨.finished, []⟩, .finished⟩

def step (side : Side) (r : Run) (d : Desk) (t : Thread) : Step :=
  match t.control, t.stack with
  | .statements [] _, stack => .ended r d stack
  | .statements (s :: rest) scope, stack =>
    r.descend d .checkpoint (.entering s scope) (.located s.span :: .following rest scope :: stack)
  | .perform s scope, stack => r.perform d scope stack s
  | .evaluate e scope, stack => r.evaluate d scope stack e
  | .value v, frame :: stack => r.giveValue d v stack frame
  | .ended signal, frame :: stack => r.endBlock d signal stack frame
  | .raised e, frame :: stack => r.unwind d e stack frame
  | .checkpoint, stack => r.checkpoint d stack
  | .recheck, stack => r.recheck d stack
  | .clear, stack => r.waitClear d side stack
  | .passed, frame :: stack => r.pass d stack frame
  | .request work, stack => r.request d side work stack
  | .resume id releases, stack => r.resume d id releases false stack
  | .replied result, frame :: stack => r.reply d result stack frame
  | .start, _ => r.begin d side
  | .receive, _ => r.receive d
  | .settle ending, _ => r.settle d ending
  | .finished, _ | .value _, [] | .ended _, [] | .raised _, [] | .passed, [] | .replied _, [] =>
    ⟨r, d, ⟨.finished, []⟩, .finished⟩

def interruptWorker (r : Run) (d : Desk) (t : Thread) : Step :=
  let r := { r with workerCancelled := false }
  match t.control with
  | .resume id releases => r.resume d id releases true t.stack
  | .recheck => .raise r d .interrupted t.stack
  | _ => r.retire d

/-- Steps of a thread until it yields, parks or is over, at most `fuel` of them. -/
def slice (side : Side) : Nat → Step → Step
  | 0, s => s
  | fuel + 1, s =>
    match s.pace with
    | .go => slice side fuel (step side s.run s.desk s.thread)
    | _ => s

end Run

end DeskScript
