import DeskScript.Token.Lexer
import DeskScript.Syntax.Tree

set_option autoImplicit false

/-!
# Expressions as they are written

A phrase is an expression without places, whose numbers still have their digits. It is written as a list of marks, the
tokens to be, with parentheses only where an operand binds less tightly than its place asks for.
-/

namespace DeskScript

open DeskScript.Text

structure Name where
  first : Char
  rest : List Char
  first_start : isNameStart first = true
  rest_char : ∀ c ∈ rest, isNameChar c = true

namespace Name

def chars (n : Name) : List Char := n.first :: n.rest

def text (n : Name) : String := String.ofList n.chars

end Name

structure FunctionName extends Name where
  free : Keyword.ofText? toName.text = none

structure Numeral where
  first : Char
  rest : List Char
  fraction : List Char
  first_digit : isAsciiDigit first = true
  rest_digit : ∀ c ∈ rest, isAsciiDigit c = true
  fraction_digit : ∀ c ∈ fraction, isAsciiDigit c = true

namespace Numeral

def pointed : List Char → List Char
  | [] => []
  | d :: ds => '.' :: d :: ds

def chars (n : Numeral) : List Char := n.first :: n.rest ++ pointed n.fraction

end Numeral

inductive Joiner where
  | binary (op : BinaryOp)
  | logic (op : LogicOp)

inductive Phrase where
  | number (digits : Numeral)
  | text (s : String)
  | bool (b : Bool)
  | null
  | var (name : Name)
  | unary (op : UnaryOp) (operand : Phrase)
  | joined (op : Joiner) (left right : Phrase)
  | array (elements : List Phrase)
  | object (entries : List (String × Phrase))
  | call (name : FunctionName) (arguments : List Phrase)
  | member (base : Phrase) (name : Name)
  | index (base key : Phrase)

def Joiner.build (span : Span) : Joiner → Expr → Expr → Expr
  | binary op => .binary span op
  | logic op => .logic span op

namespace Expr

mutual

def unplaced : Expr → Expr
  | literal _ value => literal default value
  | var _ name => var default name
  | binary _ op left right => binary default op (unplaced left) (unplaced right)
  | logic _ op left right => logic default op (unplaced left) (unplaced right)
  | unary _ op operand => unary default op (unplaced operand)
  | call _ name arguments => call default name (unplacedAll arguments)
  | array _ elements => array default (unplacedAll elements)
  | object _ entries => object default (unplacedEntries entries)
  | template _ segments => template default segments
  | property _ base key => property default (unplaced base) (unplaced key)

def unplacedAll : List Expr → List Expr
  | [] => []
  | e :: rest => unplaced e :: unplacedAll rest

def unplacedEntries : List (String × Expr) → List (String × Expr)
  | [] => []
  | (key, e) :: rest => (key, unplaced e) :: unplacedEntries rest

end

end Expr

theorem Joiner.build_unplaced (op : Joiner) (span : Span) (left right : Expr) :
    (op.build span left right).unplaced = op.build default left.unplaced right.unplaced := by
  cases op <;> simp [build, Expr.unplaced]

namespace Phrase

mutual

def tree : Phrase → Expr
  | number digits => .literal default (.number (Token.numberValue digits.chars))
  | text s => .literal default (.text s)
  | bool b => .literal default (.bool b)
  | null => .literal default .null
  | var name => .var default name.text
  | unary op operand => .unary default op (tree operand)
  | joined op left right => op.build default (tree left) (tree right)
  | array elements => .array default (trees elements)
  | object entries => .object default (entryTrees entries)
  | call name arguments => .call default name.text (trees arguments)
  | member base name => .property default (tree base) (.literal default (.text name.text))
  | index base key => .property default (tree base) (tree key)

def trees : List Phrase → List Expr
  | [] => []
  | p :: rest => tree p :: trees rest

def entryTrees : List (String × Phrase) → List (String × Expr)
  | [] => []
  | (key, p) :: rest => (key, tree p) :: entryTrees rest

end

end Phrase

/-- A token to be written, with a blank in front unless it is glued to what stands before it. -/
structure Mark where
  glued : Bool
  content : Content
  chars : List Char

namespace Mark

def text : List Mark → List Char
  | [] => []
  | m :: ms => (if m.glued then m.chars else ' ' :: m.chars) ++ text ms

@[simp] theorem text_nil : text [] = [] := rfl

theorem text_append (ms ns : List Mark) : text (ms ++ ns) = text ms ++ text ns := by
  induction ms with
  | nil => rfl
  | cons m ms ih => rw [List.cons_append, text, text, ih, List.append_assoc]

def sign (glued : Bool) (s : Symbol) (c : Char) : Mark := ⟨glued, .symbol s, [c]⟩

end Mark

def escapedChar (c : Char) : List Char :=
  if c = '\'' then ['\\', '\''] else if c = '\\' then ['\\', '\\'] else if c = '\n' then ['\\', 'n']
  else if c = '\t' then ['\\', 't'] else if c = '\r' then ['\\', 'r'] else if c = Char.ofNat 0 then ['\\', '0']
  else [c]

def singleQuoted (cs : List Char) : List Char := '\'' :: cs.flatMap escapedChar ++ ['\'']

def quotedMark (glued : Bool) (s : String) : Mark := ⟨glued, .text s, singleQuoted s.toList⟩

namespace Joiner

def level : Joiner → Nat
  | logic .or => 0
  | logic .and => 1
  | binary .eq | binary .ne | binary .lt | binary .gt | binary .le | binary .ge => 2
  | binary .plus | binary .minus => 3
  | binary .times | binary .divide | binary .remainder => 4

def content : Joiner → Content
  | logic .or => .keyword .or
  | logic .and => .keyword .and
  | binary .eq => .symbol .eq
  | binary .ne => .symbol .ne
  | binary .lt => .symbol .lt
  | binary .gt => .symbol .gt
  | binary .le => .symbol .le
  | binary .ge => .symbol .ge
  | binary .plus => .symbol .plus
  | binary .minus => .symbol .minus
  | binary .times => .symbol .star
  | binary .divide => .symbol .slash
  | binary .remainder => .symbol .percent

def chars : Joiner → List Char
  | logic .or => ['|', '|']
  | logic .and => ['&', '&']
  | binary .eq => ['=', '=']
  | binary .ne => ['!', '=']
  | binary .lt => ['<']
  | binary .gt => ['>']
  | binary .le => ['<', '=']
  | binary .ge => ['>', '=']
  | binary .plus => ['+']
  | binary .minus => ['-']
  | binary .times => ['*']
  | binary .divide => ['/']
  | binary .remainder => ['%']

def mark (op : Joiner) : Mark := ⟨false, op.content, op.chars⟩

end Joiner

def unaryMark (glued : Bool) : UnaryOp → Mark
  | .negate => ⟨glued, .symbol .minus, ['-']⟩
  | .not => ⟨glued, .keyword .not, ['!']⟩

def enclosed (needed glued : Bool) (inner : Bool → List Mark) : List Mark :=
  if needed then .sign glued .leftParen '(' :: inner true ++ [.sign true .rightParen ')'] else inner glued

namespace Phrase

/-- How tightly a phrase holds together: an operator's level, 5 for unary operators, 6 for what needs no parentheses. -/
def level : Phrase → Nat
  | joined op _ _ => op.level
  | unary _ _ => 5
  | _ => 6

mutual

def marks (glued : Bool) (wanted : Nat) : Phrase → List Mark
  | number digits => [⟨glued, .number (Token.numberValue digits.chars), digits.chars⟩]
  | text s => [quotedMark glued s]
  | bool true => [⟨glued, .keyword .trueWord, ['t', 'r', 'u', 'e']⟩]
  | bool false => [⟨glued, .keyword .falseWord, ['f', 'a', 'l', 's', 'e']⟩]
  | null => [⟨glued, .keyword .null, ['n', 'u', 'l', 'l']⟩]
  | var name => [⟨glued, .var name.text, '$' :: name.chars⟩]
  | unary op operand => enclosed (5 < wanted) glued fun g => unaryMark g op :: marks true 5 operand
  | joined op left right =>
    enclosed (op.level < wanted) glued fun g =>
      marks g op.level left ++ op.mark :: marks false (op.level + 1) right
  | array elements => .sign glued .leftBracket '[' :: listMarks elements ++ [.sign true .rightBracket ']']
  | object entries => .sign glued .leftBrace '{' :: entryMarks true entries ++ [.sign true .rightBrace '}']
  | call name arguments =>
    ⟨glued, .word, name.chars⟩ :: .sign true .leftParen '(' :: listMarks arguments ++ [.sign true .rightParen ')']
  | member base name =>
    marks glued 6 base ++ [.sign true .dot '.', ⟨true, Token.wordContent name.chars, name.chars⟩]
  | index base key =>
    marks glued 6 base ++ .sign true .leftBracket '[' :: marks true 0 key ++ [.sign true .rightBracket ']']

def listMarks : List Phrase → List Mark
  | [] => []
  | p :: rest => marks true 0 p ++ moreMarks rest

def moreMarks : List Phrase → List Mark
  | [] => []
  | p :: rest => .sign true .comma ',' :: marks false 0 p ++ moreMarks rest

def entryMarks (glued : Bool) : List (String × Phrase) → List Mark
  | [] => []
  | (key, p) :: rest =>
    quotedMark glued key :: .sign true .colon ':' :: marks false 0 p ++ moreEntryMarks rest

def moreEntryMarks : List (String × Phrase) → List Mark
  | [] => []
  | (key, p) :: rest =>
    .sign true .comma ',' :: quotedMark false key :: .sign true .colon ':' :: marks false 0 p ++ moreEntryMarks rest

end

def print (p : Phrase) : String := String.ofList (Mark.text (p.marks true 0))

end Phrase

end DeskScript
