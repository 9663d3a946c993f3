import DeskScript.Number.Shortest

set_option autoImplicit false

/-!
# Number text

How digits are laid out: which exponents are written positionally, whether an integral value keeps `.0`, and the words
for the values that are not finite. Two layouts are used: `plainLayout` for data shown to people who program, and
`briefLayout` for six-digit figures in messages.
-/

namespace DeskScript.Number

/-- Decisions of a number format. Exponents in `[positionalFrom, positionalTo)` are written positionally. -/
structure Layout where
  positionalFrom : Int
  positionalTo : Int
  keepsPoint : Bool
  infinityWord : String
  nanWord : String

def plainLayout : Layout := ⟨-4, 16, true, "inf", "nan"⟩

def briefLayout : Layout := ⟨-4, 6, false, "inf", "nan"⟩

def natDigits (n : Nat) : List Char := Nat.toDigits 10 n

def intText (i : Int) : String :=
  String.ofList (if i < 0 then '-' :: natDigits i.natAbs else natDigits i.natAbs)

def stripZeros (cs : List Char) : List Char :=
  match cs.reverse.dropWhile (· = '0') with
  | [] => ['0']
  | rest => rest.reverse

def exponentText (e : Int) : List Char :=
  let ds := natDigits e.natAbs
  (if e < 0 then '-' else '+') :: (if ds.length < 2 then '0' :: ds else ds)

def Layout.place (l : Layout) (d : Digits) : List Char :=
  let ds := stripZeros (natDigits d.digits)
  let e := d.exponent
  if l.positionalFrom ≤ e && e < l.positionalTo then
    if e < 0 then '0' :: '.' :: List.replicate (-e - 1).toNat '0' ++ ds
    else
      let whole := e.toNat + 1
      if ds.length ≤ whole then
        ds ++ List.replicate (whole - ds.length) '0' ++ (if l.keepsPoint then ['.', '0'] else [])
      else ds.take whole ++ '.' :: ds.drop whole
  else
    match ds with
    | [] => []
    | [d] => d :: 'e' :: exponentText e
    | d :: more => d :: '.' :: more ++ 'e' :: exponentText e

def Layout.text (l : Layout) (digitsOf : Float → Digits) (x : Float) : String :=
  if x.isNaN then l.nanWord
  else
    let negative := (Binary.ofFloat x).negative
    let body :=
      if x.isInf then l.infinityWord.toList
      else if x == 0 then l.place ⟨0, 1, 0⟩
      else l.place (digitsOf x)
    String.ofList (if negative then '-' :: body else body)

def plainText (x : Float) : String := plainLayout.text shortestDigits x

def briefText (x : Float) : String := briefLayout.text (roundedDigits · 6) x

end DeskScript.Number
