/-!
# Whole numbers in texts

Reading a whole number out of a text that may hold more than its digits: blanks around it, a plus
sign, zeros in front, zeros after a point, and single underscores inside. What is left when these
are taken away has to be a plain whole number of limited length.
-/

namespace Conductor.Number

/-- The characters that may stand around a number. -/
def isBlank (c : Char) : Bool :=
  let n := c.toNat
  (9 ≤ n && n ≤ 13) || n = 0x20 || n = 0x85 || n = 0xa0 || n = 0x1680 || (0x2000 ≤ n && n ≤ 0x200a)
    || n = 0x2028 || n = 0x2029 || n = 0x202f || n = 0x205f || n = 0x3000

def trimmed (cs : List Char) : List Char :=
  ((cs.dropWhile isBlank).reverse.dropWhile isBlank).reverse

/-- How many characters a plain whole number may have, its sign included. -/
def lengthLimit : Nat := 4300

def digitsValue (cs : List Char) : Nat :=
  cs.foldl (fun n c => n * 10 + (c.toNat - '0'.toNat)) 0

/-- The value of a run of one or more digits. -/
def digits? (cs : List Char) : Option Nat :=
  if !cs.isEmpty && cs.all Char.isDigit then some (digitsValue cs) else none

/-- The value of plain digits: zero alone, or any number of digits that do not begin with zero. -/
def natural? (cs : List Char) : Option Nat :=
  if cs.head? = some '0' && cs.length != 1 then none else digits? cs

/-- The value of a plain whole number. Zeros may come first after a minus sign only: without one
they are taken away before a number is read. -/
def plain? (cs : List Char) : Option Int :=
  if lengthLimit < cs.length then none
  else match cs with
    | '-' :: rest => (digits? rest).map fun n => -(n : Int)
    | cs => (natural? cs).map fun n => (n : Int)

/-- A text without a plus sign in front, which no minus sign may follow. -/
def withoutPlus : List Char → Option (List Char)
  | '+' :: '-' :: _ => none
  | '+' :: rest => some rest
  | cs => some cs

/-- What follows a zero and is left once the zeros and underscores after it are taken away. `last`
is the character before. A digit or a minus sign ends the zeros, and before a point one of them
stays. -/
def afterZero (last : Char) : List Char → Option (List Char)
  | [] => some [last]
  | c :: rest =>
    if c = '0' || c = '_' then afterZero c rest
    else if c.isDigit || c = '-' then some (c :: rest)
    else if c = '.' then some (last :: c :: rest)
    else none

def withoutZeros : List Char → Option (List Char)
  | [] => none
  | c :: rest =>
    if c = '0' then afterZero c rest
    else if c.isDigit || c = '-' then some (c :: rest)
    else none

/-- A text without a point that is followed by zeros alone. -/
def withoutFraction (cs : List Char) : List Char :=
  let whole := cs.takeWhile (· != '.')
  if ((cs.drop whole.length).drop 1).all (· == '0') then whole else cs

def hasDouble : List Char → Bool
  | '_' :: '_' :: _ => true
  | _ :: rest => hasDouble rest
  | [] => false

/-- A text without underscores, unless one stands at an end or beside another. -/
def withoutUnderscores (cs : List Char) : List Char :=
  if cs.head? = some '_' || cs.getLast? = some '_' || hasDouble cs then cs
  else cs.filter (· != '_')

def reduced? (cs : List Char) : Option (List Char) := do
  let cs ← withoutPlus (trimmed cs)
  let cs ← withoutZeros cs
  return withoutUnderscores (withoutFraction cs)

def wholeOfText? (s : String) : Option Int :=
  match plain? s.toList with
  | some n => some n
  | none => (reduced? s.toList).bind plain?

end Conductor.Number
