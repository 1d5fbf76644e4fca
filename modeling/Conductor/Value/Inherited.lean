import Conductor.Fault
import Conductor.Value.Basic

/-!
# Inherited members

What every object has, whatever its kind: basic operations, a few methods, and some attributes that
cannot be called. A call is refused by what it is given before it does anything.
-/

namespace Conductor

/-- What every object has, by what it takes when it is called. -/
inductive Inherited where
  /-- A basic operation with a number of arguments. -/
  | operation (arguments : Nat)
  /-- A method with no argument or one. -/
  | method (arguments : Nat)
  | anyArguments
  | constructor
  /-- Something of a type that cannot be called. -/
  | constant (type : String)
  deriving DecidableEq, Repr

namespace Inherited

def members : List (String × Inherited) := [
  ("__delattr__", operation 1), ("__eq__", operation 1), ("__ge__", operation 1),
  ("__getattribute__", operation 1), ("__gt__", operation 1), ("__le__", operation 1),
  ("__lt__", operation 1), ("__ne__", operation 1), ("__setattr__", operation 2),
  ("__hash__", operation 0), ("__repr__", operation 0), ("__str__", operation 0),
  ("__dir__", method 0), ("__getstate__", method 0), ("__init_subclass__", method 0),
  ("__reduce__", method 0), ("__sizeof__", method 0), ("__format__", method 1),
  ("__reduce_ex__", method 1), ("__subclasshook__", anyArguments), ("__new__", constructor),
  ("__doc__", constant "str"), ("__module__", constant "str")]

/-- What comes before the attributes of an object itself. -/
def fixed : List (String × Inherited) := [
  ("__dict__", constant "dict"), ("__weakref__", constant "NoneType")]

def check (type name : String) (arguments : List Value) : Inherited → Except Fault Unit
  | operation n =>
    if arguments.length = n then .ok () else .error (.operationArity name n arguments.length)
  | method n =>
    if arguments.length = n then .ok ()
    else .error (.inheritedArity type name n arguments.length)
  | anyArguments => .ok ()
  | constructor =>
    match arguments with
    | [] => .error .constructorWithoutClass
    | v :: _ => .error (.constructorNotClass v.typeName)
  | constant other => .error (.notCallable other)

end Inherited

end Conductor
