import DeskScript.Builtin.Arrays
import DeskScript.Builtin.Conversion
import DeskScript.Builtin.Desk
import DeskScript.Builtin.Numeric
import DeskScript.Builtin.Objects
import DeskScript.Builtin.Sequence
import DeskScript.Builtin.Textual

set_option autoImplicit false

/-!
# Built-in functions

All functions by name. A call checks the arguments against the signature and then applies the function; a fault becomes
an error of the script that names the function.
-/

namespace DeskScript

inductive Builtin where
  | numeric (f : NumericFn)
  | text (f : TextFn)
  | sequence (f : SequenceFn)
  | array (f : ArrayFn)
  | object (f : ObjectFn)
  | conversion (f : ConversionFn)
  | desk (f : DeskFn)
  deriving DecidableEq

namespace Builtin

def all : List (String × Builtin) :=
  NumericFn.table.map (fun (n, f) => (n, numeric f)) ++
  TextFn.table.map (fun (n, f) => (n, text f)) ++
  SequenceFn.table.map (fun (n, f) => (n, sequence f)) ++
  ArrayFn.table.map (fun (n, f) => (n, array f)) ++
  ObjectFn.table.map (fun (n, f) => (n, object f)) ++
  ConversionFn.table.map (fun (n, f) => (n, conversion f)) ++
  DeskFn.table.map (fun (n, f) => (n, desk f))

def find? (name : String) : Option Builtin := all.lookup name

def signature : Builtin → Signature
  | numeric f => f.signature
  | text f => f.signature
  | sequence f => f.signature
  | array f => f.signature
  | object f => f.signature
  | conversion f => f.signature
  | desk f => f.signature

/-- An outcome on values alone, the host unchanged; a failure leaves the heap as it was. -/
def reached (h : Heap) (host : Host) (o : Outcome) : Reached :=
  match o with
  | .ok (a, h) => ⟨.ok (.answer a), h, host⟩
  | .error e => ⟨.error e, h, host⟩

def apply (f : Builtin) (h : Heap) (host : Host) (args : List Value) : Reached :=
  match f with
  | numeric f => reached h host (f.apply h args)
  | text f => reached h host (f.apply h args)
  | sequence f => reached h host (f.apply h args)
  | array f => reached h host (f.apply h args)
  | object f => reached h host (f.apply h args)
  | conversion f => reached h host (f.apply h args)
  | desk f => f.apply h host args

def wrap (needsHost : Bool) (name : String) : Failure → Failure
  | .script e => .script e
  | .fault f =>
    .because (if needsHost then .collaborator (name ++ "()") f.message else .builtinFailed name f.message)

def call (name : String) (h : Heap) (host : Host) (args : List Value) : Reached :=
  match find? name with
  | none => ⟨.error (.because (.unknownFunction name)), h, host⟩
  | some f =>
    match f.signature.complaint? name args with
    | some cause => ⟨.error (.because cause), h, host⟩
    | none =>
      let r := f.apply h host args
      { r with result := r.result.mapError (wrap f.signature.needsHost name) }

/-- Calls the function with a name and waits for its answer. Commands take no time here. -/
def callAndWait (name : String) (h : Heap) (host : Host) (args : List Value) : Except Failure Answer × Heap × Host :=
  let r := call name h host args
  match r.result with
  | .error e => (.error e, r.heap, r.host)
  | .ok (.answer a) => (.ok a, r.heap, r.host)
  | .ok (.request request) =>
    let (command, data) := request.resolve r.heap
    let host := { r.host with commands := r.host.commands.record command data }
    match request.finish r.heap ((host.commands.spec command).answer.reply data) with
    | .error e => (.error e, r.heap, host)
    | .ok (v, h) => (.ok (.value v), h, host)

end Builtin

end DeskScript
