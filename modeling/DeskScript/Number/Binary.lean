set_option autoImplicit false

/-!
# Doubles as integers times powers of two

A finite double is `± mantissa · 2 ^ exponent`. Conversions to integers are exact; the way back rounds a ratio of natural
numbers to the nearest double, a tie going to the even mantissa, and gives nothing when the ratio is too large.
-/

namespace DeskScript.Number

structure Binary where
  negative : Bool
  mantissa : Nat
  exponent : Int

/-- The parts of a finite double; the exponent field of infinities and NaN is read as a large exponent. -/
def Binary.ofFloat (x : Float) : Binary :=
  let bits : Nat := x.toBits.toNat
  let field : Nat := bits / Nat.pow 2 52 % Nat.pow 2 11
  let fraction : Nat := bits % Nat.pow 2 52
  let negative := bits / Nat.pow 2 63 == 1
  if field = 0 then ⟨negative, fraction, -1074⟩ else ⟨negative, fraction + Nat.pow 2 52, (field : Int) - 1075⟩

def Binary.ratio (b : Binary) : Nat × Nat :=
  if 0 ≤ b.exponent then (b.mantissa * Nat.pow 2 b.exponent.toNat, 1) else (b.mantissa, Nat.pow 2 (-b.exponent).toNat)

theorem Binary.ratio_pos (b : Binary) : 0 < b.ratio.2 := by
  unfold Binary.ratio
  split
  · exact Nat.one_pos
  · exact Nat.pow_pos (by decide)

/-- The quotient rounded to the nearest integer, a tie going to the even one. -/
def roundedQuotient (num den : Nat) : Nat :=
  let q := num / den
  let r := num % den
  if 2 * r < den then q else if den < 2 * r then q + 1 else if q % 2 = 0 then q else q + 1

def ofBitsWithSign (negative : Bool) (bits : Nat) : Float :=
  Float.ofBits (UInt64.ofNat (if negative then bits + Nat.pow 2 63 else bits))

def scaled (num den : Nat) (e : Int) : Nat × Nat :=
  if 0 ≤ e then (num, den * Nat.pow 2 e.toNat) else (num * Nat.pow 2 (-e).toNat, den)

/-- The exponent that gives `num / den` a mantissa of 53 bits, or the least exponent of a double if that is larger. -/
def exponentFor (num den : Nat) : Int :=
  let guess : Int := (num.log2 : Int) - den.log2 - 53
  let (n, d) := scaled num den guess
  max (if n < d * Nat.pow 2 53 then guess else guess + 1) (-1074)

/-- The double with a mantissa and an exponent; nothing if it is too large. A mantissa that was rounded up to the next
power of two moves the exponent. -/
def ofParts? (negative : Bool) (mantissa : Nat) (exponent : Int) : Option Float :=
  let (q, e) := if mantissa = Nat.pow 2 53 then (Nat.pow 2 52, exponent + 1) else (mantissa, exponent)
  if 971 < e then none
  else if q < Nat.pow 2 52 then some (ofBitsWithSign negative q)
  else some (ofBitsWithSign negative ((e + 1075).toNat * Nat.pow 2 52 + (q - Nat.pow 2 52)))

def ofRatio? (negative : Bool) (num den : Nat) : Option Float :=
  if num = 0 then some (ofBitsWithSign negative 0)
  else
    let e := exponentFor num den
    let (n, d) := scaled num den e
    ofParts? negative (roundedQuotient n d) e

def infinity : Float := Float.ofBits 0x7FF0000000000000

def notANumber : Float := Float.ofBits 0x7FF8000000000000

def ofInt? (i : Int) : Option Float := ofRatio? (i < 0) i.natAbs 1

def ofNat (n : Nat) : Float := (ofRatio? false n 1).getD infinity

def rational (x : Float) : Rat :=
  let b := Binary.ofFloat x
  let (num, den) := b.ratio
  mkRat (if b.negative then -(num : Int) else num) den

def truncated (x : Float) : Int :=
  let b := Binary.ofFloat x
  let (num, den) := b.ratio
  let n : Nat := num / den
  if b.negative then -(n : Int) else n

def floored (x : Float) : Int :=
  let b := Binary.ofFloat x
  let (num, den) := b.ratio
  if b.negative then -(((num + den - 1) / den : Nat) : Int) else ((num / den : Nat) : Int)

def ceiled (x : Float) : Int :=
  let b := Binary.ofFloat x
  let (num, den) := b.ratio
  if b.negative then -((num / den : Nat) : Int) else (((num + den - 1) / den : Nat) : Int)

def isIntegral (x : Float) : Bool :=
  x.isFinite &&
    (let b := Binary.ofFloat x
     let (num, den) := b.ratio
     num % den == 0)

/-- Remainder of the division that truncates toward zero, with the sign of `x`; both are finite and `y` is not zero. -/
def remainder (x y : Float) : Float :=
  let a := Binary.ofFloat x
  let b := Binary.ofFloat y
  let e := min a.exponent b.exponent
  let m := a.mantissa * Nat.pow 2 (a.exponent - e).toNat % (b.mantissa * Nat.pow 2 (b.exponent - e).toNat)
  let (num, den) := (Binary.mk false m e).ratio
  (ofRatio? a.negative num den).getD 0

end DeskScript.Number
