import DeskScript.Script.Error
import DeskScript.Value.Basic

set_option autoImplicit false

/-!
# Scopes

Scopes form a tree, each with a parent made before it. A name is looked up from the inside out. A name that no scope
declares is assigned in the nearest boundary: the root, or the frame of a function call.
-/

namespace DeskScript

abbrev ScopeId := Nat

structure Scope where
  label : String
  parent : Option ScopeId
  boundary : Bool
  bindings : Dict Value := []
  deriving Inhabited

structure Scopes where
  all : Array Scope
  deriving Inhabited

namespace Scopes

def root : Scopes := ⟨#[{ label := "global", parent := none, boundary := true }]⟩

def get (s : Scopes) (id : ScopeId) : Scope := s.all.getD id default

def extend (s : Scopes) (parent : ScopeId) (label : String) (boundary : Bool) (bindings : Dict Value) :
    ScopeId × Scopes :=
  (s.all.size, ⟨s.all.push { label, parent := some parent, boundary, bindings }⟩)

def nearest (s : Scopes) (test : Scope → Bool) (id : ScopeId) : Option ScopeId :=
  let scope := s.get id
  if test scope then some id
  else
    match scope.parent with
    | none => none
    | some parent => if parent < id then nearest s test parent else none
termination_by id

def declaring? (s : Scopes) (id : ScopeId) (name : String) : Option ScopeId :=
  s.nearest (fun scope => scope.bindings.contains name) id

def lookup? (s : Scopes) (id : ScopeId) (name : String) : Option Value :=
  (s.declaring? id name).bind fun owner => (s.get owner).bindings.get? name

/-- Binds a name in a scope, whatever outer scopes declare. -/
def declare (s : Scopes) (id : ScopeId) (name : String) (value : Value) : Scopes :=
  ⟨s.all.modify id fun scope => { scope with bindings := scope.bindings.insert name value }⟩

def boundaryOf (s : Scopes) (id : ScopeId) : ScopeId := (s.nearest (·.boundary) id).getD 0

/-- Assigns a name in the nearest scope that declares it, or else in the nearest boundary. -/
def assign (s : Scopes) (id : ScopeId) (name : String) (value : Value) : Scopes :=
  s.declare ((s.declaring? id name).getD (s.boundaryOf id)) name value

def describe (s : Scopes) (id : ScopeId) : String :=
  let scope := s.get id
  let names := scope.bindings.keys.mergeSort fun a b => !decide (b < a)
  "Environment(" ++ scope.label ++ ", [" ++ ", ".intercalate (names.map Text.quoted) ++ "])"

end Scopes

end DeskScript
