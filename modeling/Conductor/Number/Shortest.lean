import Conductor.Number.Binary64

/-!
# Shortest decimal text of a number

A finite number is written with the fewest digits that read back as the same number; among those
with the same count the nearest is taken. The interval of reals that round to the number is handled
exactly, as a fraction of naturals, and for one, two, … seventeen digits the two neighbours of the
number on that decimal grid are tested.
-/

namespace Conductor.Binary64

/-- A positive rational `num / den`. -/
structure Ratio where
  num : Nat
  den : Nat

/-- The rational `n * 2 ^ e`. -/
def Ratio.binary (n : Nat) (e : Int) : Ratio :=
  if 0 ≤ e then ⟨n * .pow 2 e.toNat, 1⟩ else ⟨n, .pow 2 (-e).toNat⟩

/-- The rational `n * 10 ^ e`. -/
def Ratio.decimal (n : Nat) (e : Int) : Ratio :=
  if 0 ≤ e then ⟨n * .pow 10 e.toNat, 1⟩ else ⟨n, .pow 10 (-e).toNat⟩

def Ratio.le (a b : Ratio) : Bool := a.num * b.den ≤ b.num * a.den

def Ratio.lt (a b : Ratio) : Bool := a.num * b.den < b.num * a.den

def Ratio.floorDiv (a b : Ratio) : Nat := (a.num * b.den) / (a.den * b.num)

def digitCount (n : Nat) : Nat := (Nat.toDigits 10 n).length

def leadingExponent (v : Ratio) : Int :=
  (digitCount (v.num * .pow 10 400 / v.den) : Int) - 401

/-- The reals that round to a number: the number and both ends, which belong to it when `closed`. -/
structure Rounding where
  value : Ratio
  low : Ratio
  high : Ratio
  closed : Bool

/-- The interval of the absolute value of a finite nonzero number. The gap below a power of two is
half as wide as the gap above. -/
def rounding (x : Binary64) : Rounding :=
  let m := x.significand
  let e := x.scale - 2
  let gap := if x.fraction = 0 ∧ 1 < x.exponentField then 1 else 2
  { value := .binary (4 * m) e, low := .binary (4 * m - gap) e, high := .binary (4 * m + 2) e
    closed := m % 2 == 0 }

def Rounding.holds (r : Rounding) (d : Ratio) : Bool :=
  if r.closed then r.low.le d && d.le r.high else r.low.lt d && d.lt r.high

/-- The best decimal `n * 10 ^ unit` on one grid, if any point of the grid reads back. -/
def onGrid? (r : Rounding) (unit : Int) : Option Nat :=
  let below := r.value.floorDiv (.decimal 1 unit)
  let lower := Ratio.decimal below unit
  let upper := Ratio.decimal (below + 1) unit
  match r.holds lower, r.holds upper with
  | true, false => some below
  | false, true => some (below + 1)
  | false, false => none
  | true, true =>
    let middle := Ratio.decimal (10 * below + 5) (unit - 1)
    if r.value.lt middle then some below
    else if middle.lt r.value then some (below + 1)
    else some (if below % 2 = 0 then below else below + 1)

/-- The digits and the unit of the shortest decimal, starting from `count` digits. -/
def shortestFrom (r : Rounding) (lead : Int) (count : Nat) : Nat → Nat × Int
  | 0 => (r.value.floorDiv (.decimal 1 (lead - 17)), lead - 17)
  | fuel + 1 =>
    let unit := lead + 1 - count
    match onGrid? r unit with
    | some n => (n, unit)
    | none => shortestFrom r lead (count + 1) fuel

/-- The digits of the shortest decimal and the exponent of its first digit. -/
def shortest (x : Binary64) : List Char × Int :=
  let r := x.rounding
  let (n, unit) := shortestFrom r (leadingExponent r.value) 1 17
  let digits := Nat.toDigits 10 n
  let kept := (digits.reverse.dropWhile (· == '0')).reverse
  (kept, unit + digits.length - 1)

/-- How a number is laid out: the exponents of the first digit that are written positionally, and
the least count of exponent digits. -/
structure Layout where
  positionalFrom : Int
  positionalBelow : Int
  exponentWidth : Nat

/-- Positional from a ten-thousandth up to below ten to the sixteenth, exponents of two digits. -/
def plainLayout : Layout := ⟨-4, 16, 2⟩

/-- The unsigned text of a decimal in a layout. A positional integer keeps one zero after the
point; a lone digit before an exponent has no point. -/
def layOut (layout : Layout) (digits : List Char) (exponent : Int) : List Char :=
  if layout.positionalFrom ≤ exponent ∧ exponent < layout.positionalBelow then
    if exponent < 0 then
      ['0', '.'] ++ List.replicate (-exponent - 1).toNat '0' ++ digits
    else
      let whole := exponent.toNat + 1
      let padded := digits ++ List.replicate (whole - digits.length) '0'
      let rest := padded.drop whole
      padded.take whole ++ ['.'] ++ (if rest.isEmpty then ['0'] else rest)
  else
    let mark := if exponent < 0 then '-' else '+'
    let power := Nat.toDigits 10 exponent.natAbs
    let mantissa := match digits with
      | [] => ['0']
      | [d] => [d]
      | d :: rest => d :: '.' :: rest
    mantissa ++ ['e', mark] ++ List.replicate (layout.exponentWidth - power.length) '0' ++ power

def text (x : Binary64) : String :=
  let sign := if x.isNegative then "-" else ""
  if x.isInfinite then sign ++ "inf"
  else if x.isZero then sign ++ "0.0"
  else
    let (digits, exponent) := x.shortest
    sign ++ String.ofList (layOut plainLayout digits exponent)

end Conductor.Binary64
