import Conductor.Value.Datum

/-!
# Faults

Everything that can go wrong is a cause; `className`, `message` and `shown` give its wording in one
place. How a fault travels depends only on its nature: ordinary faults reject a run, the end of an
iteration may not leave a routine or settle a future, a cancellation ends a task as cancelled, and
base faults pass every handler.
-/

namespace Conductor

/-- How a fault is treated on its way. -/
inductive Nature where
  | ordinary
  | stopIteration
  | cancelled
  | base
  deriving DecidableEq, Repr

/-- The parameters that a call left unbound, or the arguments it had too many. -/
inductive ArityFault where
  | tooMany (least most given keywordOnly : Nat)
  | missing (positional : Bool) (names : List String)
  | unexpectedKeyword (name : String)
  | repeated (name : String)
  | positionalOnly (names : List String)
  deriving DecidableEq, Repr

inductive Fault where
  /-- Raised by an action under a class name of its own choice. -/
  | raised (name : String) (message : Option String)
  /-- Raised with a constructor that needs other arguments. -/
  | badConstruction (text : String)
  | missingKey (key : Datum)
  | unhashable (type : String)
  | notIterable (type : String)
  | notCallable (type : String)
  | notSubscriptable (type : String)
  | noItemAssignment (type : String)
  | noItemDeletion (type : String)
  | badIndex (container index : String)
  /-- Indexing beyond the items of a container, to read or to write. -/
  | indexRange (container : String) (writing : Bool)
  | indexTooLarge
  /-- Removing an item by its place, or by any key, from what has none to remove. -/
  | noPlaceDeletion (type : String)
  | noAttribute (type name : String)
  | attributeNameNotText (type : String)
  | classNotAssignable (type : String)
  | classNotDeletable
  | attributesNotMapping (type : String)
  | immutableType (type name : String)
  | cannotAddOne (type : String)
  | cannotConcatenate (type : String)
  | arity (function : String) (fault : ArityFault)
  /-- A basic operation of every object, called with another number of arguments. -/
  | operationArity (name : String) (expected given : Nat)
  | inheritedArity (type name : String) (expected given : Nat)
  /-- A method of a container, called with too few or too many arguments. -/
  | argumentRange (name : String) (least most given : Nat)
  | readOnlyMember (type name : String)
  | notInList (item : Datum)
  | notRemovable
  | popRange (isEmpty : Bool)
  | emptyDictionary
  | formatNotText (type : String)
  | formatUnknown (type : String)
  | notInteger (type : String)
  | integerTooLarge
  | constructorWithoutClass
  | constructorNotClass (type : String)
  | prefixNotBytes
  | notException
  | notAwaitable (type : String)
  | lengthArity (given : Nat)
  | lengthKeywords
  | dictArity (given : Nat)
  | initResult (type : String)
  | nameNotText
  | classNameNotText (label type : String)
  | classNameWithNull
  | readOnlyAttribute (type name : String)
  | notPair (position : Nat)
  | pairLength (position length : Nat)
  | payloadNotMapping (type : String)
  | undeclaredOutput (node : Datum) (path : List Datum) (output : Datum) (declared : List Datum)
  | outputNotBranch (node : Datum) (output : Datum)
  | undeclaredShortcut (node : Datum) (name : String) (declared : List String)
  | hiddenAttribute (name : String)
  | joinNotText (position : Nat) (type : String)
  | joinNotIterable
  | reportTooDeep
  | abstractCompletion
  | bodyCancelled
  | cancelled
  | stopIterationLeft
  | stopIterationSet
  | alreadySettled
  | noRunningLoop
  deriving Repr

namespace Fault

/-- Classes outside the ordinary ones. -/
def natureOfClass (name : String) : Nature :=
  if name = "StopIteration" then .stopIteration
  else if name = "CancelledError" then .cancelled
  else if name ∈ ["BaseCustom", "BaseException", "KeyboardInterrupt", "SystemExit",
      "GeneratorExit", "BaseExceptionGroup"] then .base
  else .ordinary

def nature : Fault → Nature
  | raised name _ => natureOfClass name
  | cancelled => .cancelled
  | _ => .ordinary

/-- Whether a handler of ordinary faults takes a fault: all but cancellations and base faults. -/
def isOrdinary (f : Fault) : Bool :=
  match f.nature with
  | .ordinary => true
  | .stopIteration => true
  | _ => false

def className : Fault → String
  | raised name _ => name
  | missingKey _ => "KeyError"
  | emptyDictionary => "KeyError"
  | pairLength _ _ | notInList _ | notRemovable | classNameWithNull | reportTooDeep => "ValueError"
  | indexRange _ _ | indexTooLarge | popRange _ => "IndexError"
  | integerTooLarge => "OverflowError"
  | noAttribute _ _ | readOnlyMember _ _ | readOnlyAttribute _ _ | undeclaredShortcut _ _ _ | hiddenAttribute _ =>
    "AttributeError"
  | undeclaredOutput _ _ _ _ => "OutputPathError"
  | outputNotBranch _ _ => "GraphDefinitionError"
  | abstractCompletion => "NotImplementedError"
  | bodyCancelled => "ActionGraphError"
  | cancelled => "CancelledError"
  | stopIterationLeft | noRunningLoop => "RuntimeError"
  | alreadySettled => "InvalidStateError"
  | _ => "TypeError"

def plural (n : Nat) : String := if n = 1 then "" else "s"

def enumerate : List String → String
  | [] => ""
  | [a] => Text.quoted a
  | [a, b] => Text.quoted a ++ " and " ++ Text.quoted b
  | names =>
    match names.reverse with
    | last :: rest =>
      String.intercalate ", " (rest.reverse.map Text.quoted) ++ ", and " ++ Text.quoted last
    | [] => ""

def arityMessage (function : String) : ArityFault → String
  | .tooMany least most given keywordOnly =>
    let range := if least = most then toString most
      else "from " ++ toString least ++ " to " ++ toString most
    let many := if least = most then plural most else "s"
    let extra := if keywordOnly = 0 then ""
      else " positional argument" ++ plural given ++ " (and " ++ toString keywordOnly
        ++ " keyword-only argument" ++ plural keywordOnly ++ ")"
    let verb := if given = 1 ∧ keywordOnly = 0 then "was" else "were"
    function ++ "() takes " ++ range ++ " positional argument" ++ many ++ " but "
      ++ toString given ++ extra ++ " " ++ verb ++ " given"
  | .missing positional names =>
    function ++ "() missing " ++ toString names.length ++ " required "
      ++ (if positional then "positional" else "keyword-only") ++ " argument"
      ++ plural names.length ++ ": " ++ enumerate names
  | .unexpectedKeyword name =>
    function ++ "() got an unexpected keyword argument '" ++ name ++ "'"
  | .repeated name => function ++ "() got multiple values for argument '" ++ name ++ "'"
  | .positionalOnly names =>
    function ++ "() got some positional-only arguments passed as keyword arguments: '"
      ++ String.intercalate ", " names ++ "'"

def shownItems (items : List Datum) : String :=
  (Datum.list items).shown

def message : Fault → String
  | raised name none =>
    if name ∈ ["SyntaxError", "IndentationError", "TabError"] then "None" else ""
  | raised name (some m) => if name = "KeyError" then Text.quoted m else m
  | badConstruction text => text
  | missingKey key => key.shown
  | unhashable type => "unhashable type: '" ++ type ++ "'"
  | notIterable type => "'" ++ type ++ "' object is not iterable"
  | notCallable type => "'" ++ type ++ "' object is not callable"
  | notSubscriptable type => "'" ++ type ++ "' object is not subscriptable"
  | noItemAssignment type => "'" ++ type ++ "' object does not support item assignment"
  | noItemDeletion type => "'" ++ type ++ "' object does not support item deletion"
  | noPlaceDeletion type => "'" ++ type ++ "' object doesn't support item deletion"
  | badIndex container index =>
    if container = "str" then "string indices must be integers, not '" ++ index ++ "'"
    else if container = "bytes" then "byte indices must be integers or slices, not " ++ index
    else container ++ " indices must be integers or slices, not " ++ index
  | indexRange container writing =>
    (if container = "bytes" then "" else if container = "str" then "string " else container ++ " ")
      ++ (if writing then "assignment " else "") ++ "index out of range"
  | indexTooLarge => "cannot fit 'int' into an index-sized integer"
  | noAttribute type name => "'" ++ type ++ "' object has no attribute '" ++ name ++ "'"
  | attributeNameNotText type => "attribute name must be string, not '" ++ type ++ "'"
  | classNotAssignable type => "__class__ must be set to a class, not '" ++ type ++ "' object"
  | classNotDeletable => "can't delete __class__ attribute"
  | attributesNotMapping type => "__dict__ must be set to a dictionary, not a '" ++ type ++ "'"
  | immutableType type name =>
    "cannot set " ++ Text.quoted name ++ " attribute of immutable type '" ++ type ++ "'"
  | cannotAddOne type => "unsupported operand type(s) for +: '" ++ type ++ "' and 'int'"
  | cannotConcatenate type =>
    if type = "bytes" then "can't concat int to bytes"
    else "can only concatenate " ++ type ++ " (not \"int\") to " ++ type
  | arity function fault => arityMessage function fault
  | operationArity name expected given =>
    (if name = "__setattr__" then " " else "") ++ "expected " ++ toString expected ++ " argument"
      ++ plural expected ++ ", got " ++ toString given
  | inheritedArity type name expected given =>
    type ++ "." ++ name ++ "() takes " ++ (if expected = 0 then "no arguments" else
      "exactly one argument") ++ " (" ++ toString given ++ " given)"
  | argumentRange name least most given =>
    let bound := if least = most then "" else if given < least then "at least " else "at most "
    let count := if given < least then least else most
    name ++ " expected " ++ bound ++ toString count ++ " argument" ++ plural count ++ ", got "
      ++ toString given
  | readOnlyMember type name => "'" ++ type ++ "' object attribute '" ++ name ++ "' is read-only"
  | notInList item => item.shown ++ " is not in list"
  | notRemovable => "list.remove(x): x not in list"
  | popRange isEmpty => if isEmpty then "pop from empty list" else "pop index out of range"
  | emptyDictionary => Text.quoted "popitem(): dictionary is empty"
  | formatNotText type =>
    "__format__() argument must be str, not " ++ (if type = "NoneType" then "None" else type)
  | formatUnknown type => "unsupported format string passed to " ++ type ++ ".__format__"
  | notInteger type => "'" ++ type ++ "' object cannot be interpreted as an integer"
  | integerTooLarge => "Python int too large to convert to C int"
  | constructorWithoutClass => "object.__new__(): not enough arguments"
  | constructorNotClass type => "object.__new__(X): X is not a type object (" ++ type ++ ")"
  | prefixNotBytes => "startswith first arg must be bytes or a tuple of bytes, not str"
  | notException => "invalid exception object"
  | notAwaitable type => "object " ++ type ++ " can't be used in 'await' expression"
  | lengthArity given => "len() takes exactly one argument (" ++ toString given ++ " given)"
  | lengthKeywords => "len() takes no keyword arguments"
  | dictArity given => "dict expected at most 1 argument, got " ++ toString given
  | initResult type => "__init__() should return None, not '" ++ type ++ "'"
  | nameNotText => "__name__ must be set to a string object"
  | classNameNotText label type =>
    "can only assign string to " ++ label ++ ".__name__, not '" ++ type ++ "'"
  | classNameWithNull => "type name must not contain null characters"
  | readOnlyAttribute type name =>
    "attribute " ++ Text.quoted name ++ " of '" ++ type ++ "' objects is not writable"
  | notPair position =>
    "cannot convert dictionary update sequence element #" ++ toString position ++ " to a sequence"
  | pairLength position length =>
    "dictionary update sequence element #" ++ toString position ++ " has length "
      ++ toString length ++ "; 2 is required"
  | payloadNotMapping type => "Action payload must be a mapping, got " ++ type
  | undeclaredOutput node path output declared =>
    "Action " ++ node.shown ++ " at " ++ shownItems path ++ " completed with output "
      ++ output.shown ++ ", declared outputs: " ++ shownItems declared
  | outputNotBranch node output =>
    "Output " ++ output.shown ++ " of action " ++ node.shown ++ " is not a branch list"
  | undeclaredShortcut node name declared =>
    let names := String.intercalate ", " declared
    "Action " ++ node.shown ++ " has no output " ++ Text.quoted name ++ " (declared: "
      ++ (if names.isEmpty then "none" else names) ++ ")"
  | hiddenAttribute name => name
  | joinNotText position type =>
    "sequence item " ++ toString position ++ ": expected str instance, " ++ type ++ " found"
  | joinNotIterable => "can only join an iterable"
  | reportTooDeep => "Circular reference detected (depth exceeded)"
  | abstractCompletion => ""
  | bodyCancelled => "Action body was cancelled"
  | cancelled => ""
  | stopIterationLeft => "coroutine raised StopIteration"
  | stopIterationSet =>
    "StopIteration interacts badly with generators and cannot be raised into a Future"
  | alreadySettled => "invalid state"
  | noRunningLoop => "no running event loop"

/-- The shown form of a fault: its class applied to what it was made from. -/
def shown (f : Fault) : String :=
  let made := match f with
    | raised _ none => ""
    | raised _ (some m) => Text.quoted m
    | missingKey key => key.shown
    | emptyDictionary => emptyDictionary.message
    | abstractCompletion | cancelled => ""
    | f => Text.quoted f.message
  f.className ++ "(" ++ made ++ ")"

/-- Classes known under a second name. -/
def canonicalClass (name : String) : String :=
  if name = "IOError" ∨ name = "EnvironmentError" then "OSError" else name

/-- The fault of raising a class with a message, or with nothing. Some classes need other arguments,
and making one of them fails as a call. -/
def ofRaise (name : String) (message : Option String) : Except Fault Fault :=
  let given := toString (if message.isSome then 1 else 0)
  match name, message with
  | "GraphDefinitionError", none =>
    .error (arity "GraphDefinitionError.__init__" (.missing true ["message"]))
  | "UnicodeDecodeError", _ | "UnicodeEncodeError", _ =>
    .error (badConstruction ("function takes exactly 5 arguments (" ++ given ++ " given)"))
  | "UnicodeTranslateError", _ =>
    .error (badConstruction ("function takes exactly 4 arguments (" ++ given ++ " given)"))
  | "ExceptionGroup", _ | "BaseExceptionGroup", _ =>
    .error (badConstruction ("BaseExceptionGroup.__new__() takes exactly 2 arguments (" ++ given
      ++ " given)"))
  | _, _ => .ok (raised (canonicalClass name) message)

end Fault

/-- A fault that was raised. The number tells apart faults of one cause: a handler that asks whether
this is the very fault it knows compares numbers. -/
structure Raised where
  id : Nat
  fault : Fault
  deriving Repr

namespace Raised

def is (a b : Raised) : Bool := a.id == b.id

end Raised

end Conductor
