import DeskScript.Builtin.Signature
import DeskScript.Json.Reader

set_option autoImplicit false

/-!
# Kinds, conversions, JSON and assertions
-/

namespace DeskScript

inductive ConversionFn where
  | typeof | isKind (k : Kind) | toNumber | toInt | toString | toBoolean | toJson | fromJson | inspect | assert
  deriving DecidableEq

def numberOf? : Value → Option Float
  | .num x => some x
  | .bool b => some (if b then 1 else 0)
  | .str s =>
    let text := Text.trimmed s
    if text = "Infinity" || text = "+Infinity" then some Number.infinity
    else if text = "-Infinity" then some (-Number.infinity)
    else Number.decimal? Number.takeDigits text.toList
  | _ => none

namespace ConversionFn

def table : List (String × ConversionFn) :=
  [("typeof", typeof), ("isNull", isKind .null), ("isNumber", isKind .number), ("isString", isKind .string),
   ("isBoolean", isKind .boolean), ("isArray", isKind .array), ("isObject", isKind .object), ("toNumber", toNumber),
   ("toInt", toInt), ("toString", toString), ("toBoolean", toBoolean), ("toJSON", toJson), ("fromJSON", fromJson),
   ("inspect", inspect), ("assert", assert)]

def signature : ConversionFn → Signature
  | typeof | isKind _ | toString | toBoolean | inspect => .exactly 1 []
  | toNumber | toInt => .between 1 2 [.any]
  | toJson => .between 1 2 [.any, .number]
  | fromJson => .exactly 1 [.string]
  | assert => .between 1 2 [.any, .text]

def orFallback (h : Heap) (rest : List Value) (cause : Cause) : Outcome :=
  if rest.isEmpty then .error (.because cause) else Outcome.argument h 1

/-- The value as JSON with an indentation; more blanks than an index can count are a fault, but a text has no lines to
indent. -/
def jsonText (h : Heap) (v : Value) (indent : Option Int) : Except Failure String :=
  match v, indent with
  | .str s, _ => .ok (Json.quoted s)
  | v, none => .ok (h.json v none)
  | v, some n =>
    if Builtin.indexLimit < n then .error (.fault .countTooLarge) else .ok (h.json v (some n.toNat))

def apply (f : ConversionFn) (h : Heap) (args : List Value) : Outcome :=
  match f, args with
  | typeof, [v] => Outcome.text h v.kind.name
  | isKind k, [v] => Outcome.bool h (v.kind == k)
  | toNumber, v :: rest =>
    match numberOf? v with
    | some x => Outcome.number h x
    | none => orFallback h rest (.noNumber v.kind (h.display v))
  | toInt, v :: rest =>
    match numberOf? v with
    | some x =>
      if x.isFinite then Outcome.number h ((Number.ofInt? (Number.truncated x)).getD 0)
      else orFallback h rest (.noInteger v.kind (h.display v))
    | none => orFallback h rest (.noInteger v.kind (h.display v))
  | toString, [v] => Outcome.text h (h.display v)
  | toBoolean, [v] => Outcome.bool h (h.truthy v)
  | toJson, v :: rest => do
    let indent ← match rest with
      | .num x :: _ => (fun i => some (max 0 i)) <$> Builtin.intArgument "toJSON" x
      | _ => pure none
    Outcome.text h (← jsonText h v indent)
  | fromJson, [.str s] =>
    let cs := s.toList
    match Json.document Json.standard cs with
    | .error t => .error (.because (.invalidJson (t.message cs)))
    | .ok p =>
      match h.ofPlain p with
      | .ok (v, h) => Outcome.give h v
      | .error f => .error (.fault f)
  | inspect, [v] =>
    let shown := match v with
      | .str s => Json.quoted s
      | v => h.display v
    Outcome.text h ("<" ++ v.kind.name ++ "> " ++ shown)
  | assert, v :: rest =>
    if h.truthy v then Outcome.bool h true
    else
      .error (.because (.assertion (match rest with
        | m :: _ => h.display m
        | [] => "assertion failed")))
  | _, _ => Outcome.give h .null

end ConversionFn

end DeskScript
