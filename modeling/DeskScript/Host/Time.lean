import DeskScript.Number.Binary

set_option autoImplicit false

/-!
# Time

Times are reckoned in doubles, which are rounded, or on an ideal clock exactly. A double that meets an exact time counts as
the number it stands for, and one that is not finite as more than any number.
-/

namespace DeskScript

inductive Extent where
  | finite (q : Rat)
  | endless
  deriving DecidableEq

namespace Extent

def ofFloat (x : Float) : Extent := if x.isFinite then finite (Number.rational x) else endless

def le : Extent → Extent → Bool
  | finite p, finite q => p ≤ q
  | _, endless => true
  | endless, finite _ => false

def add : Extent → Extent → Extent
  | finite p, finite q => finite (p + q)
  | _, _ => endless

/-- What is left after `b`. After more than any number, nothing is. -/
def sub (a b : Extent) : Extent :=
  match a, b with
  | finite p, finite q => finite (p - q)
  | endless, finite _ => endless
  | _, endless => finite 0

def times (k : Rat) : Extent → Extent
  | finite q => finite (q * k)
  | endless => endless

def positive : Extent → Extent
  | finite q => finite (if 0 ≤ q then q else 0)
  | endless => endless

instance : LE Extent := ⟨fun a b => a.le b = true⟩

instance : LT Extent := ⟨fun a b => ¬b ≤ a⟩

instance (a b : Extent) : Decidable (a ≤ b) := inferInstanceAs (Decidable (_ = true))

instance (a b : Extent) : Decidable (a < b) := inferInstanceAs (Decidable (¬_))

end Extent

inductive Time where
  | rounded (x : Float)
  | exact (e : Extent)
  deriving DecidableEq

namespace Time

instance : OfNat Time 0 := ⟨rounded 0⟩

def extent : Time → Extent
  | rounded x => .ofFloat x
  | exact e => e

def toFloat : Time → Float
  | rounded x => x
  | exact (.finite q) => (Number.ofRatio? (q < 0) q.num.natAbs q.den).getD Number.infinity
  | exact .endless => Number.infinity

instance : Sub Time where
  sub
    | rounded x, rounded y => rounded (x - y)
    | a, b => exact (a.extent.sub b.extent)

instance : LE Time where
  le
    | rounded x, rounded y => x ≤ y
    | a, b => a.extent ≤ b.extent

instance : LT Time where
  lt
    | rounded x, rounded y => x < y
    | a, b => a.extent < b.extent

instance (a b : Time) : Decidable (a ≤ b) :=
  match a, b with
  | rounded x, rounded y => inferInstanceAs (Decidable (x ≤ y))
  | rounded _, exact _ | exact _, rounded _ | exact _, exact _ => inferInstanceAs (Decidable ((_ : Extent) ≤ _))

instance (a b : Time) : Decidable (a < b) :=
  match a, b with
  | rounded x, rounded y => inferInstanceAs (Decidable (x < y))
  | rounded _, exact _ | exact _, rounded _ | exact _, exact _ => inferInstanceAs (Decidable ((_ : Extent) < _))

def positive : Time → Time
  | rounded x => rounded (if x > 0 then x else 0)
  | exact e => exact e.positive

def millis : Time → Time
  | rounded x => rounded (x * 1000)
  | exact e => exact (e.times 1000)

def waitSeconds (ms : Float) : Float := (if ms > 0 then ms else 0) / 1000

def span (ms : Time) : Extent := ms.extent.positive.times (1 / 1000)

def after : Time → Time → Time
  | rounded seconds, rounded ms => rounded (seconds + waitSeconds ms)
  | seconds, ms => exact (seconds.extent.add ms.span)

def takesTime : Time → Bool
  | rounded ms => waitSeconds ms > 0
  | exact ms => .finite 0 < ms

end Time

end DeskScript
