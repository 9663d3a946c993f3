import DeskScript.Syntax.Tree
import DeskScript.Text.Quoted

set_option autoImplicit false

/-!
# Outlines of syntax trees

An outline is a tree of labelled nodes with named fields: the neutral form in which a syntax tree is shown. It is
written as indented lines, or as the list of its nodes with their places, parents first.
-/

namespace DeskScript

/-- A labelled tree. A field or an item is a text, a node, or a list of items some of which have a key. -/
inductive Outline where
  | leaf (text : String)
  | node (label : String) (span : Span) (fields : List (String × Outline))
  | items (entries : List (Option String × Outline))

namespace Outline

def indented (level : Nat) (text : String) : String :=
  String.ofList (List.replicate (2 * level) ' ') ++ text

mutual

def lines (level : Nat) : Outline → List String
  | leaf text => [indented level text]
  | node label _ fields => indented level label :: fieldLines level fields
  | items entries => itemLines level entries

def fieldLines (level : Nat) : List (String × Outline) → List String
  | [] => []
  | (name, leaf text) :: rest => indented (level + 1) (name ++ ": " ++ text) :: fieldLines level rest
  | (name, node label span fields) :: rest =>
    indented (level + 1) (name ++ ":") :: lines (level + 2) (node label span fields) ++ fieldLines level rest
  | (name, items entries) :: rest =>
    indented (level + 1) (name ++ ": [") :: itemLines level entries ++
      indented (level + 1) "]" :: fieldLines level rest

def itemLines (level : Nat) : List (Option String × Outline) → List String
  | [] => []
  | (none, item) :: rest => lines (level + 2) item ++ itemLines level rest
  | (some key, item) :: rest =>
    indented (level + 2) (key ++ ":") :: lines (level + 2) item ++ itemLines level rest

end

mutual

/-- Every node with its place, parents before children. -/
def places : Outline → List (String × Span)
  | leaf _ => []
  | node label span fields => (label, span) :: fieldPlaces fields
  | items entries => itemPlaces entries

def fieldPlaces : List (String × Outline) → List (String × Span)
  | [] => []
  | (_, outline) :: rest => places outline ++ fieldPlaces rest

def itemPlaces : List (Option String × Outline) → List (String × Span)
  | [] => []
  | (_, outline) :: rest => places outline ++ itemPlaces rest

end

def text (o : Outline) : String := "\n".intercalate (lines 0 o)

def quotedLeaf (s : String) : Outline := leaf (Text.quoted s)

def optionalLeaf : Option String → Outline
  | some s => quotedLeaf s
  | none => leaf "None"

def optional : Option Outline → Outline
  | some o => o
  | none => leaf "None"

end Outline

open Outline (leaf node items quotedLeaf optionalLeaf optional)

def Literal.outlineText : Literal → String
  | null => "None"
  | bool true => "True"
  | bool false => "False"
  | number x => Number.plainText x
  | text s => Text.quoted s

def BinaryOp.outlineName : BinaryOp → String
  | plus => "PLUS" | minus => "MINUS" | times => "STAR" | divide => "SLASH" | remainder => "PERCENT"
  | eq => "EQ" | ne => "NE" | lt => "LT" | gt => "GT" | le => "LE" | ge => "GE"

def LogicOp.outlineName : LogicOp → String
  | and => "AND" | or => "OR"

def UnaryOp.outlineName : UnaryOp → String
  | negate => "MINUS" | not => "NOT"

def referenceOutline (span : Span) (base : Outline) : List String → Outline
  | [] => base
  | key :: rest =>
    referenceOutline span
      (node "PropertyAccess" span [("base", base), ("key", node "Literal" span [("value", quotedLeaf key)])]) rest

def Segment.outline (span : Span) : Segment → Outline
  | text s => quotedLeaf s
  | reference name keys => referenceOutline span (node "VariableRef" span [("name", quotedLeaf name)]) keys

namespace Expr

mutual

def outline : Expr → Outline
  | literal span value => node "Literal" span [("value", leaf value.outlineText)]
  | var span name => node "VariableRef" span [("name", quotedLeaf name)]
  | binary span op left right =>
    node (if op.isComparison then "Comparison" else "BinaryOp") span
      [("left", outline left), ("operator", leaf op.outlineName), ("right", outline right)]
  | logic span op left right =>
    node "LogicalOp" span [("left", outline left), ("operator", leaf op.outlineName), ("right", outline right)]
  | unary span op operand => node "UnaryOp" span [("operator", leaf op.outlineName), ("operand", outline operand)]
  | call span name arguments =>
    node "FunctionCall" span [("name", quotedLeaf name), ("arguments", items (outlines arguments))]
  | array span elements => node "ArrayLiteral" span [("elements", items (outlines elements))]
  | object span entries => node "ObjectLiteral" span [("entries", items (entryOutlines entries))]
  | template span segments =>
    node "Interpolated" span [("segments", items (segments.map fun s => (none, s.outline span)))]
  | property span base key => node "PropertyAccess" span [("base", outline base), ("key", outline key)]

def outlines : List Expr → List (Option String × Outline)
  | [] => []
  | e :: rest => (none, outline e) :: outlines rest

def entryOutlines : List (String × Expr) → List (Option String × Outline)
  | [] => []
  | (key, e) :: rest => (some key, outline e) :: entryOutlines rest

end

end Expr

namespace Stmt

mutual

def outline : Stmt → Outline
  | assign span target value =>
    node "SetStatement" span [("target", target.toExpr.outline), ("value", value.outline)]
  | print span message => node "PrintStatement" span [("message", message.outline)]
  | branch span condition thenBlock elseBlock =>
    node "IfStatement" span
      [("condition", condition.outline), ("then_block", blockOutline thenBlock),
       ("else_block", optionalBlockOutline elseBlock)]
  | counted span body count =>
    node "LoopStatement" span [("body", blockOutline body), ("count", count.outline), ("condition", leaf "None")]
  | conditional span body condition =>
    node "LoopStatement" span [("body", blockOutline body), ("count", leaf "None"), ("condition", condition.outline)]
  | foreach span item iterable body index =>
    node "ForeachStatement" span
      [("item_var", quotedLeaf item), ("iterable", iterable.outline), ("body", blockOutline body),
       ("index_var", optionalLeaf index)]
  | leave span => node "BreakStatement" span []
  | skip span => node "ContinueStatement" span []
  | giveBack span value => node "ReturnStatement" span [("value", optional (value.map Expr.outline))]
  | define span name params body =>
    node "FunctionDef" span
      [("name", quotedLeaf name), ("params", items (params.map fun p => (none, quotedLeaf p))),
       ("body", blockOutline body)]
  | command span request =>
    node "CommandStatement" span
      [("command", quotedLeaf request.name),
       ("arguments", items (request.operands.map fun (name, e) => (some name, e.outline))),
       ("into", optionalLeaf request.into?)]
  | attempt span tryBlock catchBlock errorVar =>
    node "TryCatch" span
      [("try_block", blockOutline tryBlock), ("catch_block", blockOutline catchBlock),
       ("error_var", optionalLeaf errorVar)]
  | on span event body => node "EventOn" span [("event_name", event.outline), ("body", blockOutline body)]
  | emit span event payload =>
    node "EventEmit" span [("event_name", event.outline), ("payload", optional (payload.map Expr.outline))]
  | evaluate span expression => node "ExpressionStatement" span [("expression", expression.outline)]

def blockOutline : Block Stmt → Outline
  | ⟨span, statements⟩ => node "Block" span [("statements", items (outlines statements))]

def optionalBlockOutline : Option (Block Stmt) → Outline
  | none => leaf "None"
  | some block => blockOutline block

def outlines : List Stmt → List (Option String × Outline)
  | [] => []
  | s :: rest => (none, outline s) :: outlines rest

end

end Stmt

def Program.outline (p : Program) : Outline :=
  node "Program" p.span [("statements", items (Stmt.outlines p.statements))]

end DeskScript
