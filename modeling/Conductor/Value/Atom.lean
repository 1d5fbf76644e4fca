import Conductor.Number.Shortest
import Conductor.Text.Quoted

/-!
# Atoms

The values without parts. Two atoms are the same key exactly when their canonical forms are equal:
truth values count as the integers one and zero, and a number with an integral value counts as that
integer. NaN and opaque objects are the same only as themselves, which their tokens record.
-/

namespace Conductor

/-- A value without parts. `token` tells apart values that are only identical to themselves. -/
inductive Atom where
  | null
  | bool (b : Bool)
  | int (n : Int)
  | float (x : Binary64)
  | nan (token : Nat)
  | text (s : String)
  | bytes (bs : List UInt8)
  | object (token : Nat) (shown : String)
  deriving DecidableEq, Repr, Inhabited

namespace Atom

/-- The form that decides whether two atoms are the same key. -/
def canon : Atom → Atom
  | bool b => int (if b then 1 else 0)
  | float x => match x.toInt? with
    | some n => int n
    | none => float x
  | a => a

def typeName : Atom → String
  | null => "NoneType"
  | bool _ => "bool"
  | int _ => "int"
  | float _ => "float"
  | nan _ => "float"
  | text _ => "str"
  | bytes _ => "bytes"
  | object _ _ => "Obj"

/-- The null value, zeros and empty texts count as absent. -/
def isTruthy : Atom → Bool
  | null => false
  | bool b => b
  | int n => n != 0
  | float x => !x.isZero
  | nan _ => true
  | text s => !s.isEmpty
  | bytes bs => !bs.isEmpty
  | object _ _ => true

def shown : Atom → String
  | null => "None"
  | bool b => if b then "True" else "False"
  | int n => toString n
  | float x => x.text
  | nan _ => "nan"
  | text s => Text.quoted s
  | bytes bs => Text.quotedBytes bs
  | object _ s => s

end Atom

end Conductor
