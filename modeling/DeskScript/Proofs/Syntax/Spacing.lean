import DeskScript.Syntax.Cursor
import DeskScript.Syntax.Outline

set_option autoImplicit false

/-!
# Places of the nodes of a tree

The nodes of a tree are well spaced if each lies inside of the node it is a part of, behind the parts before it. A parser
that passes tokens gives nodes between the first of them and the last.
-/

namespace DeskScript

namespace Span

structure Within (s t : Span) : Prop where
  start : t.start.offset ≤ s.start.offset
  stop : s.stop.offset ≤ t.stop.offset

structure Row (i j : Nat) (spans : List Span) : Prop where
  inside : ∀ s ∈ spans, i ≤ s.start.offset ∧ s.stop.offset ≤ j
  apart : spans.Pairwise fun s t => s.stop.offset ≤ t.start.offset

/-- A span that does not end before its start, with other spans inside of it, one behind the other. -/
structure Holds (s : Span) (parts : List Span) : Prop where
  proper : s.start.offset ≤ s.stop.offset
  row : Row s.start.offset s.stop.offset parts

theorem Row.nil (i j : Nat) : Row i j [] := ⟨by simp, .nil⟩

section

variable {α : Type} {span : α → Span} {P : α → Prop} {i j k l : Nat} {nodes : List α} {a : α}

structure Fits (span : α → Span) (P : α → Prop) (i j : Nat) (a : α) : Prop where
  start : i ≤ (span a).start.offset
  proper : (span a).start.offset ≤ (span a).stop.offset
  stop : (span a).stop.offset ≤ j
  holds : P a

structure Lined (span : α → Span) (P : α → Prop) (i j : Nat) (nodes : List α) : Prop where
  row : Row i j (nodes.map span)
  each : ∀ a ∈ nodes, P a

theorem Fits.le (h : Fits span P i j a) : i ≤ j := Nat.le_trans h.start (Nat.le_trans h.proper h.stop)

theorem Fits.mono (h : Fits span P i j a) (hi : k ≤ i) (hj : j ≤ l) : Fits span P k l a :=
  ⟨Nat.le_trans hi h.start, h.proper, Nat.le_trans h.stop hj, h.holds⟩

theorem Lined.nil : Lined span P i j [] := ⟨.nil i j, by simp⟩

theorem Lined.mono (h : Lined span P i j nodes) (hi : k ≤ i) (hj : j ≤ l) : Lined span P k l nodes := by
  refine ⟨⟨fun s hs => ?_, h.row.apart⟩, h.each⟩
  have hinside := h.row.inside s hs
  omega

theorem Lined.snoc (h : Lined span P i j nodes) (hi : i ≤ j) (ha : Fits span P j k a) :
    Lined span P i k (nodes ++ [a]) := by
  have hstart := ha.start
  have hle := ha.le
  refine ⟨⟨fun s hs => ?_, ?_⟩, fun b hb => ?_⟩
  · rw [List.map_append, List.mem_append] at hs
    rcases hs with hs | hs
    · have hinside := h.row.inside s hs
      omega
    · obtain rfl := List.mem_singleton.1 hs
      exact ⟨Nat.le_trans hi hstart, ha.stop⟩
  · rw [List.map_append, List.pairwise_append]
    refine ⟨h.row.apart, by simp, fun s hs t ht => ?_⟩
    obtain rfl := List.mem_singleton.1 ht
    exact Nat.le_trans (h.row.inside s hs).2 hstart
  · rcases List.mem_append.1 hb with hb | hb
    · exact h.each b hb
    · obtain rfl := List.mem_singleton.1 hb
      exact ha.holds

theorem Fits.lined (h : Fits span P i j a) : Lined span P i j [a] := Lined.nil.snoc (Nat.le_refl i) h

end

end Span

/-- Every place below a reference of a template is the place of the template. -/
theorem referenceOutline_places {span : Span} {base : Outline} (hbase : ∀ place ∈ base.places, place.2 = span)
    (keys : List String) : ∀ place ∈ (referenceOutline span base keys).places, place.2 = span := by
  induction keys generalizing base with
  | nil => exact hbase
  | cons key keys ih =>
    refine ih fun place hplace => ?_
    simp only [Outline.places, Outline.fieldPlaces, Outline.quotedLeaf, List.mem_cons, List.mem_append,
      List.append_nil] at hplace
    rcases hplace with rfl | hplace | rfl | hplace
    · rfl
    · exact hbase place hplace
    · rfl
    · cases hplace

theorem Segment.outline_places (span : Span) (segment : Segment) :
    ∀ place ∈ (segment.outline span).places, place.2 = span := by
  cases segment with
  | text s => simp [Segment.outline, Outline.quotedLeaf, Outline.places]
  | reference name keys =>
    refine referenceOutline_places (fun place hplace => ?_) keys
    simp only [Outline.places, Outline.fieldPlaces, Outline.quotedLeaf, List.append_nil, List.mem_singleton] at hplace
    rw [hplace]

namespace Expr

def parts : Expr → List Expr
  | literal _ _ | var _ _ | template _ _ => []
  | binary _ _ left right | logic _ _ left right => [left, right]
  | unary _ _ operand => [operand]
  | call _ _ arguments => arguments
  | array _ elements => elements
  | object _ entries => entries.map (·.2)
  | property _ base key => [base, key]

def segments : Expr → List Segment
  | template _ segments => segments
  | _ => []

inductive Throughout (P : Expr → Prop) : Expr → Prop where
  | intro {e : Expr} (here : P e) (below : ∀ part ∈ e.parts, Throughout P part) : Throughout P e

/-- The parts of an expression lie in it in order, and the references of a template at the template. -/
structure Spaced (e : Expr) : Prop where
  holds : e.span.Holds (e.parts.map span)
  references : ∀ segment ∈ e.segments, ∀ place ∈ (segment.outline e.span).places, place.2 = e.span

theorem Spaced.of_holds {e : Expr} (h : e.span.Holds (e.parts.map span)) : e.Spaced :=
  ⟨h, fun segment _ => segment.outline_places e.span⟩

abbrev Fits (i j : Nat) (e : Expr) : Prop := Span.Fits span (Throughout Spaced) i j e

abbrev Lined (i j : Nat) (es : List Expr) : Prop := Span.Lined span (Throughout Spaced) i j es

theorem throughout_of_lined {e : Expr} (hproper : e.span.start.offset ≤ e.span.stop.offset)
    (hparts : Lined e.span.start.offset e.span.stop.offset e.parts) : e.Throughout Spaced :=
  .intro (.of_holds ⟨hproper, hparts.row⟩) hparts.each

end Expr

namespace Stmt

def blocks : Stmt → List (Block Stmt)
  | branch _ _ thenBlock elseBlock => thenBlock :: elseBlock.toList
  | counted _ body _ | conditional _ body _ | foreach _ _ _ body _ | define _ _ _ body | on _ _ body => [body]
  | attempt _ tryBlock catchBlock _ => [tryBlock, catchBlock]
  | assign _ _ _ | print _ _ | leave _ | skip _ | giveBack _ _ | command _ _ | emit _ _ _ | evaluate _ _ => []

def expressions : Stmt → List Expr
  | assign _ target value => [target.toExpr, value]
  | print _ message => [message]
  | branch _ condition _ _ | conditional _ _ condition => [condition]
  | counted _ _ count => [count]
  | foreach _ _ iterable _ _ => [iterable]
  | giveBack _ value => value.toList
  | command _ request => request.operands.map (·.2)
  | on _ event _ => [event]
  | emit _ event payload => event :: payload.toList
  | evaluate _ e => [e]
  | leave _ | skip _ | define _ _ _ _ | attempt _ _ _ _ => []

inductive Throughout (P : Stmt → Prop) : Stmt → Prop where
  | intro {s : Stmt} (here : P s) (below : ∀ b ∈ s.blocks, ∀ inner ∈ b.statements, Throughout P inner) : Throughout P s

theorem Throughout.mono {P Q : Stmt → Prop} (hPQ : ∀ s, P s → Q s) {s : Stmt} (h : s.Throughout P) :
    s.Throughout Q := by
  induction h with
  | intro here below ih => exact .intro (hPQ _ here) ih

/-- The blocks of a statement lie in it in order, so do the statements of each block, and its expressions are well
spaced in themselves. -/
structure Spaced (s : Stmt) : Prop where
  blocks : s.span.Holds (s.blocks.map Block.span)
  statements : ∀ b ∈ s.blocks, b.span.Holds (b.statements.map span)
  expressions : ∀ e ∈ s.expressions, e.Throughout Expr.Spaced

end Stmt

structure Program.Spaced (p : Program) : Prop where
  statements : p.span.Holds (p.statements.map Stmt.span)
  below : ∀ s ∈ p.statements, s.Throughout Stmt.Spaced

def Token.EndsMessage (t : Token) : Prop :=
  t.endsStatement = true ∨ t.content = .keyword .into ∨ t.content = .keyword .default ∨ t.content = .keyword .toWord

/-- An expression for which no token was read: an empty message, at the token that ends it, or an empty list of pairs. -/
inductive Expr.Vacant (tokens : List Token) : Expr → Prop where
  | message {t : Token} (ht : t ∈ tokens) (hends : t.EndsMessage) : Vacant tokens (.literal t.span (.text ""))
  | pairs {t : Token} {span : Span} (ht : t ∈ tokens) (hends : t.endsStatement = true)
      (hstart : span.start = t.span.start) : Vacant tokens (.object span [])

/-- Where the span of a statement is in relation to its expressions. That of `print` is its keyword, in front of the
message; any other one covers the expressions for which a token was read. -/
def Stmt.Covering (tokens : List Token) : Stmt → Prop
  | print span message =>
    (∃ t ∈ tokens, t.content = .keyword .print ∧ span = t.span) ∧ span.stop.offset ≤ message.span.start.offset
  | s => ∀ e ∈ s.expressions, e.span.Within s.span ∨ e.Vacant tokens

end DeskScript
