import DeskScript.Token.Basic
import DeskScript.Number.Read

set_option autoImplicit false

/-!
# From source text to tokens

Each scanner takes the characters it wants from the front of a text and gives back the rest, so that what was taken
followed by the rest is the text again. Malformed text becomes a token too: reading never fails, and the token list
ends in one `finish` token.
-/

namespace DeskScript

open DeskScript.Text

namespace Token

def spanWhile (p : Char → Bool) : List Char → List Char × List Char
  | [] => ([], [])
  | c :: rest => if p c then let (taken, left) := spanWhile p rest; (c :: taken, left) else ([], c :: rest)

theorem spanWhile_split (p : Char → Bool) (cs : List Char) : (spanWhile p cs).1 ++ (spanWhile p cs).2 = cs := by
  induction cs with
  | nil => rfl
  | cons c rest ih => by_cases h : p c <;> simp [spanWhile, h, ih]

/-- The gap before a token: blanks, comments, and line ends while a bracket is open. -/
def gapSpan (depth : Nat) (inComment : Bool) : List Char → List Char × List Char
  | [] => ([], [])
  | c :: rest =>
    if c = '\n' then
      if 0 < depth then let (taken, left) := gapSpan depth false rest; (c :: taken, left) else ([], c :: rest)
    else if inComment || c = ' ' || c = '\t' || c = '\r' then
      let (taken, left) := gapSpan depth inComment rest; (c :: taken, left)
    else if c = '#' then let (taken, left) := gapSpan depth true rest; (c :: taken, left)
    else ([], c :: rest)

theorem gapSpan_split (depth : Nat) (inComment : Bool) (cs : List Char) :
    (gapSpan depth inComment cs).1 ++ (gapSpan depth inComment cs).2 = cs := by
  induction cs generalizing inComment with
  | nil => rfl
  | cons c rest ih =>
    unfold gapSpan
    split
    · split <;> simp [ih]
    · split
      · simp [ih]
      · split <;> simp [ih]

def beginsWith (p : Char → Bool) : List Char → Bool
  | [] => false
  | c :: _ => p c

def dottedSpan (isStart : Char → Bool) : List Char → List Char × List Char
  | [] => ([], [])
  | c :: rest =>
    if isNameChar c || (c = '.' && beginsWith isStart rest) then
      let (taken, left) := dottedSpan isStart rest; (c :: taken, left)
    else ([], c :: rest)

theorem dottedSpan_split (isStart : Char → Bool) (cs : List Char) :
    (dottedSpan isStart cs).1 ++ (dottedSpan isStart cs).2 = cs := by
  induction cs with
  | nil => rfl
  | cons c rest ih =>
    unfold dottedSpan
    split <;> simp [ih]

theorem dottedSpan_length (isStart : Char → Bool) (cs : List Char) :
    (dottedSpan isStart cs).2.length ≤ cs.length := by
  have h := congrArg List.length (dottedSpan_split isStart cs)
  simp at h
  omega

structure Scanned where
  content : Content
  taken : List Char
  rest : List Char

def unescape (c : Char) : Char :=
  if c = 'n' then '\n' else if c = 't' then '\t' else if c = 'r' then '\r' else if c = '0' then Char.ofNat 0 else c

/-- Adds the pending characters, if any, as a piece of text. Both lists are reversed. -/
def flushText (pieces : List Piece) (chars : List Char) : List Piece :=
  if chars.isEmpty then pieces else .text (String.ofList chars.reverse) :: pieces

def textContent (pieces : List Piece) (chars : List Char) : Content :=
  if pieces.isEmpty then .text (String.ofList chars.reverse) else .template (flushText pieces chars).reverse

/-- The body of a string after its opening quote; `pieces`, `chars` and `taken` are reversed. -/
def scanQuoted (quote : Char) (pieces : List Piece) (chars taken : List Char) (cs : List Char) : Scanned :=
  match cs with
  | [] => ⟨.fault .unterminatedString, taken.reverse, []⟩
  | c :: rest =>
    if c = quote then ⟨textContent pieces chars, (c :: taken).reverse, rest⟩
    else if c = '\n' then ⟨.fault .unterminatedString, taken.reverse, c :: rest⟩
    else if c = '\\' then
      match rest with
      | [] => ⟨.fault .unterminatedString, (c :: taken).reverse, []⟩
      | e :: rest => scanQuoted quote pieces (unescape e :: chars) (e :: c :: taken) rest
    else if quote = '"' && c = '$' && beginsWith isNameStart rest then
      let name := dottedSpan isNameStart rest
      scanQuoted quote (.reference (String.ofList name.1) :: flushText pieces chars) []
        (name.1.reverse ++ c :: taken) name.2
    else scanQuoted quote pieces (c :: chars) (c :: taken) rest
termination_by cs.length
decreasing_by
  · simp only [List.length_cons]
    omega
  · have := dottedSpan_length isNameStart rest
    simp only [List.length_cons]
    omega
  · simp only [List.length_cons]
    omega

def fractionSpan (cs : List Char) : List Char × List Char :=
  match cs with
  | '.' :: rest =>
    if beginsWith isAsciiDigit rest then
      let (digits, left) := spanWhile isAsciiDigit rest
      ('.' :: digits, left)
    else ([], cs)
  | _ => ([], cs)

def exponentSpan (cs : List Char) : List Char × List Char :=
  match cs with
  | e :: rest =>
    if e = 'e' || e = 'E' then
      if beginsWith isAsciiDigit rest then
        let (digits, left) := spanWhile isAsciiDigit rest
        (e :: digits, left)
      else
        match rest with
        | sign :: rest =>
          if (sign = '+' || sign = '-') && beginsWith isAsciiDigit rest then
            let (digits, left) := spanWhile isAsciiDigit rest
            (e :: sign :: digits, left)
          else ([], cs)
        | [] => ([], cs)
    else ([], cs)
  | [] => ([], cs)

theorem fractionSpan_split (cs : List Char) : (fractionSpan cs).1 ++ (fractionSpan cs).2 = cs := by
  unfold fractionSpan
  split
  · split
    · simp [spanWhile_split]
    · rfl
  · rfl

theorem exponentSpan_split (cs : List Char) : (exponentSpan cs).1 ++ (exponentSpan cs).2 = cs := by
  unfold exponentSpan
  split
  · split
    · split
      · simp [spanWhile_split]
      · split
        · split
          · simp [spanWhile_split]
          · rfl
        · rfl
    · rfl
  · rfl

def numberSpan (cs : List Char) : List Char × List Char :=
  let whole := spanWhile isAsciiDigit cs
  let fraction := fractionSpan whole.2
  let exponent := exponentSpan fraction.2
  (whole.1 ++ fraction.1 ++ exponent.1, exponent.2)

theorem numberSpan_split (cs : List Char) : (numberSpan cs).1 ++ (numberSpan cs).2 = cs := by
  simp only [numberSpan, List.append_assoc, exponentSpan_split, fractionSpan_split, spanWhile_split]

def numberValue (cs : List Char) : Float := (Number.decimal? Number.takeDigits cs).getD 0

def wordContent (cs : List Char) : Content :=
  match Keyword.ofText? (String.ofList cs) with
  | some k => .keyword k
  | none => .word

def scanVariable (rest : List Char) : Scanned :=
  if beginsWith isNameStart rest then
    let (name, left) := spanWhile isNameChar rest
    ⟨.var (String.ofList name), '$' :: name, left⟩
  else ⟨.fault .missingVariableName, ['$'], rest⟩

def pairContent? (c d : Char) : Option Content :=
  if d = '=' then
    if c = '=' then some (.symbol .eq)
    else if c = '!' then some (.symbol .ne)
    else if c = '<' then some (.symbol .le)
    else if c = '>' then some (.symbol .ge)
    else none
  else if c = '&' && d = '&' then some (.keyword .and)
  else if c = '|' && d = '|' then some (.keyword .or)
  else none

def singleContent : Char → Content
  | '=' => .symbol .assign
  | '!' => .keyword .not
  | '<' => .symbol .lt
  | '>' => .symbol .gt
  | '&' => .fault .loneAmpersand
  | '|' => .fault .loneBar
  | '(' => .symbol .leftParen
  | ')' => .symbol .rightParen
  | '[' => .symbol .leftBracket
  | ']' => .symbol .rightBracket
  | '{' => .symbol .leftBrace
  | '}' => .symbol .rightBrace
  | '+' => .symbol .plus
  | '-' => .symbol .minus
  | '*' => .symbol .star
  | '/' => .symbol .slash
  | '%' => .symbol .percent
  | ':' => .symbol .colon
  | ';' => .symbol .semicolon
  | ',' => .symbol .comma
  | '.' => .symbol .dot
  | c => .fault (.unexpectedCharacter c)

def scanSymbol (c : Char) (rest : List Char) : Scanned :=
  match rest with
  | [] => ⟨singleContent c, [c], []⟩
  | d :: left =>
    match pairContent? c d with
    | some content => ⟨content, [c, d], left⟩
    | none => ⟨singleContent c, [c], d :: left⟩

def scan (c : Char) (rest : List Char) : Scanned :=
  if c = '\n' then ⟨.newline, [c], rest⟩
  else if c = '"' || c = '\'' then scanQuoted c [] [] [c] rest
  else if isAsciiDigit c then
    let (taken, left) := numberSpan (c :: rest)
    ⟨.number (numberValue taken), taken, left⟩
  else if c = '$' then scanVariable rest
  else if isNameStart c then
    let (taken, left) := spanWhile isNameChar (c :: rest)
    ⟨wordContent taken, taken, left⟩
  else scanSymbol c rest

theorem scanQuoted_split (quote : Char) (pieces : List Piece) (chars taken cs : List Char) :
    (scanQuoted quote pieces chars taken cs).taken ++ (scanQuoted quote pieces chars taken cs).rest =
      taken.reverse ++ cs := by
  fun_induction scanQuoted quote pieces chars taken cs with
  | case1 => simp
  | case2 => simp
  | case3 => simp
  | case4 => simp
  | case5 _ _ _ _ _ _ _ ih => simp [ih]
  | case6 pieces chars taken c rest _ _ _ _ name ih =>
    rw [ih]
    simp [name, dottedSpan_split]
  | case7 _ _ _ _ _ _ _ _ _ ih => simp [ih]

theorem scanSymbol_split (c : Char) (rest : List Char) :
    (scanSymbol c rest).taken ++ (scanSymbol c rest).rest = c :: rest := by
  unfold scanSymbol
  split
  · rfl
  · split <;> rfl

/-- What a scanner takes, followed by what it leaves, is the text. -/
theorem scan_split (c : Char) (rest : List Char) : (scan c rest).taken ++ (scan c rest).rest = c :: rest := by
  unfold scan
  split
  · rfl
  · split
    · rw [scanQuoted_split]; rfl
    · split
      · exact numberSpan_split (c :: rest)
      · split
        · rename_i h
          unfold scanVariable
          split
          · simp [h, spanWhile_split]
          · simp [h]
        · split
          · exact spanWhile_split isNameChar (c :: rest)
          · exact scanSymbol_split c rest

theorem scanQuoted_taken (quote : Char) (pieces : List Piece) (chars taken cs : List Char) :
    taken.length ≤ (scanQuoted quote pieces chars taken cs).taken.length := by
  fun_induction scanQuoted quote pieces chars taken cs with
  | case1 => simp
  | case2 => simp
  | case3 => simp
  | case4 => simp
  | case5 _ _ _ _ _ _ _ ih => simp at ih; omega
  | case6 _ _ _ _ _ _ _ _ _ _ ih => simp at ih; omega
  | case7 _ _ _ _ _ _ _ _ _ ih => simp at ih; omega

theorem scanSymbol_taken (c : Char) (rest : List Char) : 0 < (scanSymbol c rest).taken.length := by
  unfold scanSymbol
  split
  · simp
  · split <;> simp

theorem scan_taken (c : Char) (rest : List Char) : 0 < (scan c rest).taken.length := by
  unfold scan
  split
  · simp
  · split
    · have := scanQuoted_taken c [] [] [c] rest
      simp at this
      omega
    · split
      · rename_i h
        simp [numberSpan, spanWhile, h]
      · split
        · unfold scanVariable
          split <;> simp
        · split
          · rename_i h
            simp [spanWhile, isNameChar_of_isNameStart c h]
          · exact scanSymbol_taken c rest

theorem scan_rest_length (c : Char) (rest : List Char) : (scan c rest).rest.length < (c :: rest).length := by
  have h := congrArg List.length (scan_split c rest)
  have t := scan_taken c rest
  simp at h ⊢
  omega

/-- Bracket depth after a token. -/
def depthAfter (depth : Nat) : Content → Nat
  | .symbol .leftParen | .symbol .leftBracket => depth + 1
  | .symbol .rightParen | .symbol .rightBracket => depth - 1
  | _ => depth

/-- The text a token shows: a line end is written out, all else as it stands in the source. -/
def lexemeOf (content : Content) (taken : List Char) : String :=
  match content with
  | .newline => "\\n"
  | _ => String.ofList taken

def scanAll (file : Option String) (depth : Nat) (here : Location) (cs : List Char) : List Token :=
  let gap := gapSpan depth false cs
  let start := here.after gap.1
  match _h : gap.2 with
  | [] => [⟨.finish, "", ⟨start, start, file⟩⟩]
  | c :: rest =>
    let found := scan c rest
    let stop := start.after found.taken
    ⟨found.content, lexemeOf found.content found.taken, ⟨start, stop, file⟩⟩ ::
      scanAll file (depthAfter depth found.content) stop found.rest
termination_by cs.length
decreasing_by
  have split := congrArg List.length (gapSpan_split depth false cs)
  have shorter := scan_rest_length c rest
  simp only [List.length_append] at split
  have left : (gapSpan depth false cs).2.length = (c :: rest).length := congrArg List.length _h
  omega

end Token

def tokenize (source : String) (file : Option String := none) : List Token :=
  Token.scanAll file 0 Location.origin source.toList

end DeskScript
