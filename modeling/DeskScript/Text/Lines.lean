set_option autoImplicit false

/-!
# Lines

Two notions of line: every character that ends a line in the wide sense (`lines`), and the reading of a file in which
`\r\n` and `\r` stand for `\n` (`unifyNewlines`).
-/

namespace DeskScript.Text

def isLineEnd (c : Char) : Bool :=
  let n := c.toNat
  (10 ≤ n && n ≤ 13) || (28 ≤ n && n ≤ 30) || n == 0x85 || n == 0x2028 || n == 0x2029

/-- Splits into lines; `line` is the current line, reversed, and `begun` says whether it holds a character. -/
def linesAux (line : List Char) (begun : Bool) : List Char → List (List Char)
  | [] => if begun then [line.reverse] else []
  | '\r' :: '\n' :: rest => line.reverse :: linesAux [] false rest
  | c :: rest =>
    if isLineEnd c then line.reverse :: linesAux [] false rest else linesAux (c :: line) true rest

/-- The lines of a text, without their ends; a final line end starts no further line. -/
def lines (s : String) : List String := (linesAux [] false s.toList).map String.ofList

def unifyNewlines : List Char → List Char
  | [] => []
  | '\r' :: '\n' :: rest => '\n' :: unifyNewlines rest
  | c :: rest => (if c = '\r' then '\n' else c) :: unifyNewlines rest

def asRead (s : String) : String := String.ofList (unifyNewlines s.toList)

end DeskScript.Text
