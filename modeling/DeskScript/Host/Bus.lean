import DeskScript.Plain
import DeskScript.Text.Search

set_option autoImplicit false

/-!
# The event bus

Subscriptions have numbers that are never given again, and a pattern. Publishing reaches every live subscription whose
pattern matches, in order of registration, and is kept in a bounded history.
-/

namespace DeskScript

structure Event where
  name : String
  payload : Plain

structure Subscription (σ : Type) where
  token : Nat
  pattern : String
  listener : σ

/-- A bus with listeners of type `σ`. The history is kept newest first. -/
structure Bus (σ : Type) where
  historySize : Nat := 200
  nextToken : Nat := 1
  subscriptions : List (Subscription σ) := []
  recent : List Event := []

namespace Bus

variable {σ : Type}

/-- A pattern matches its own text; one that ends in `*` matches every name that begins with the rest. -/
def matches_ (pattern name : String) : Bool :=
  pattern == name ||
    match pattern.toList.reverse with
    | '*' :: rest => rest.reverse.isPrefixOf name.toList
    | _ => false

def subscribe (b : Bus σ) (pattern : String) (listener : σ) : Nat × Bus σ :=
  (b.nextToken,
    { b with nextToken := b.nextToken + 1,
             subscriptions := b.subscriptions ++ [{ token := b.nextToken, pattern, listener }] })

def unsubscribe (b : Bus σ) (token : Nat) : Bus σ :=
  { b with subscriptions := b.subscriptions.filter (·.token != token) }

def unsubscribeAll (b : Bus σ) (tokens : List Nat) : Bus σ := tokens.foldl unsubscribe b

def count (b : Bus σ) (pattern : Option String) : Nat :=
  match pattern with
  | none => b.subscriptions.length
  | some p => (b.subscriptions.filter (·.pattern == p)).length

def audience (b : Bus σ) (name : String) : List σ :=
  (b.subscriptions.filter fun s => matches_ s.pattern name).map (·.listener)

def publish (b : Bus σ) (event : Event) : List σ × Bus σ :=
  (b.audience event.name, { b with recent := (event :: b.recent).take b.historySize })

/-- Calls listeners in order. What a call that fails has done stays done, and the next listener is called all the same. -/
def callEach {ε τ : Type} (call : σ → EStateM ε τ Unit) : List σ → τ → τ
  | [], s => s
  | listener :: rest, s =>
    match call listener s with
    | .ok _ s => callEach call rest s
    | .error _ s => callEach call rest s

def announce {ε τ : Type} (b : Bus σ) (call : σ → Event → EStateM ε τ Unit) (event : Event) (s : τ) : τ × Bus σ :=
  let (audience, b) := b.publish event
  (callEach (call · event) audience s, b)

def history (b : Bus σ) : List Event := b.recent.reverse

def payloads (b : Bus σ) (name : String) : List Plain :=
  (b.history.filter (·.name == name)).map (·.payload)

end Bus

end DeskScript
