/-!
# Floating-point numbers by their bits

A number of the binary64 format is held as its 64 bits, so that equality is decidable and its exact
value is a matter of integers. NaN has no place among the values that compare equal to themselves;
`ofFloat?` leaves it out.
-/

namespace Conductor

/-- A binary64 number other than NaN, given by its bits. -/
structure Binary64 where
  bits : UInt64
  deriving DecidableEq, Repr, Inhabited

namespace Binary64

/-- The sign bit. -/
def isNegative (x : Binary64) : Bool := x.bits >>> 63 == 1

def exponentField (x : Binary64) : Nat := ((x.bits >>> 52) &&& 0x7ff).toNat

def fraction (x : Binary64) : Nat := (x.bits &&& 0xfffffffffffff).toNat

def isInfinite (x : Binary64) : Bool := x.exponentField == 0x7ff

/-- The integer `m` in the absolute value `m * 2 ^ scale` of a finite number. -/
def significand (x : Binary64) : Nat :=
  if x.exponentField = 0 then x.fraction else x.fraction + 0x10000000000000

/-- The power of two in the absolute value `significand * 2 ^ scale` of a finite number. -/
def scale (x : Binary64) : Int :=
  (if x.exponentField = 0 then 1 else (x.exponentField : Int)) - 1075

def toInt? (x : Binary64) : Option Int :=
  if x.isInfinite then none
  else
    let signed (n : Nat) : Int := if x.isNegative then -(n : Int) else n
    if 0 ≤ x.scale then some (signed (x.significand * .pow 2 x.scale.toNat))
    else
      let unit := Nat.pow 2 (-x.scale).toNat
      if x.significand % unit = 0 then some (signed (x.significand / unit)) else none

/-- The nearest integer of a quotient of naturals, and of two that are equally near the even one. -/
def roundQuotient (n d : Nat) : Nat :=
  let q := n / d
  let twice := 2 * (n % d)
  if d < twice || (twice = d && q % 2 = 1) then q + 1 else q

/-- The integer nearest to a finite number, and of two that are equally near the even one. -/
def rounded? (x : Binary64) : Option Int :=
  if x.isInfinite then none
  else
    let signed (n : Nat) : Int := if x.isNegative then -(n : Int) else n
    if 0 ≤ x.scale then some (signed (x.significand * .pow 2 x.scale.toNat))
    else some (signed (roundQuotient x.significand (.pow 2 (-x.scale).toNat)))

/-- A float as its bits; NaN is `none`. -/
def ofFloat? (f : Float) : Option Binary64 :=
  if f.isNaN then none else some ⟨f.toBits⟩

def toFloat (x : Binary64) : Float := Float.ofBits x.bits

/-- The number one larger, rounded. -/
def succ (x : Binary64) : Binary64 := ⟨(x.toFloat + 1.0).toBits⟩

def zero : Binary64 := ⟨0⟩

def isZero (x : Binary64) : Bool := x.exponentField == 0 && x.fraction == 0

end Binary64

end Conductor
