import Conductor.Action.Signature
import Conductor.Action.Script

/-!
# Actions

The callables that a graph is made of: functions in several packagings, callables with arguments
bound in advance, wrappers that forward their arguments, two builtin callables, and values that
cannot be called at all. What a callable says about itself (its display name, its default output,
whether it takes a completion) is read here without calling it.
-/

namespace Conductor

inductive Packaging where
  | function
  | generator
  | method
  | object
  | unsigned
  | constructor
  deriving DecidableEq, Repr

/-- A function with a script for its body. `label` names it in messages; the script's args, store and
completion are the positional values from `offset` on. -/
structure Function where
  label : String
  packaging : Packaging := .function
  isAsync : Bool := false
  signature : Signature
  offset : Nat := 0
  steps : List Step

structure Attributes where
  actionName : Option Datum := none
  defaultOutput : Option Value := none
  name : Option Datum := none

def Attributes.isEmpty (a : Attributes) : Bool :=
  a.actionName.isNone && a.defaultOutput.isNone && a.name.isNone

/-- A callable, or a value in the place of one. -/
inductive Action where
  | function (body : Function) (attributes : Attributes)
  | bound (of : Action) (positional : List Value) (keyword : List (String × Value))
      (attributes : Attributes)
  | wrapper (of : Action) (attributes : Attributes)
  | length
  | dictionary
  | value (datum : Datum) (attributes : Attributes)

namespace Action

def attributes : Action → Attributes
  | function _ a | bound _ _ _ a | wrapper _ a | value _ a => a
  | length | dictionary => {}

def typeName : Action → String
  | function f _ =>
    match f.packaging with
    | .function | .generator => "function"
    | .method => "method"
    | .object | .unsigned => "Callable"
    | .constructor => "type"
  | bound _ _ _ _ => "functools.partial"
  | wrapper _ _ => "function"
  | length => "builtin_function_or_method"
  | dictionary => "type"
  | value d _ => d.typeName

/-- The name of the type of a callable without the module it lives in. -/
def shortTypeName (a : Action) : String :=
  match a with
  | bound _ _ _ _ => "partial"
  | a => a.typeName

def wrapperName : String := "wrapper"

/-- The name under which a callable was defined, which messages about its calls give. A wrapper has
that of what it wraps. -/
def definedName? : Action → Option String
  | function f _ =>
    match f.packaging with
    | .object | .unsigned => none
    | _ => some f.label
  | bound _ _ _ _ => none
  | wrapper of _ => some ((definedName? of).getD wrapperName)
  | length => some "len"
  | dictionary => some "dict"
  | value _ _ => none

/-- The name a callable carries, apart from any display name given to it. -/
def ownName : Action → Option Datum
  | function f a =>
    a.name <|> match f.packaging with
      | .object | .unsigned => none
      | _ => some (.text f.label)
  | bound _ _ _ a => a.name
  | wrapper of a => a.name <|> ownName of <|> some (.text wrapperName)
  | length => some (.text "len")
  | dictionary => some (.text "dict")
  | value _ a => a.name

def shown : Action → Datum
  | function f _ =>
    match f.packaging with
    | .object | .unsigned => .text ("<callable " ++ f.label ++ ">")
    | .constructor => .text ("<class '" ++ f.label ++ "'>")
    | .method => .text ("<bound method " ++ f.label ++ ">")
    | _ => .text ("<function " ++ f.label ++ ">")
  | bound _ _ _ _ => .text "functools.partial(...)"
  | wrapper _ _ => .text "<function wrapper>"
  | length => .text "<built-in function len>"
  | dictionary => .text "<class 'dict'>"
  | value d _ => .text d.shown

def firstTruthy (candidates : List (Option Datum)) : Option Datum :=
  (candidates.filterMap id).find? Datum.isTruthy

/-- The display name of a callable: the one given to it, else the name it carries, else the name of
what it binds arguments for, else its shown form. -/
def displayName : Action → Datum
  | bound of positional keyword a =>
    (firstTruthy [a.actionName, (bound of positional keyword a).ownName]).getD (displayName of)
  | a => (firstTruthy [a.attributes.actionName, a.ownName]).getD a.shown

/-- The signature of a callable; `none` when it cannot be read. -/
def signature? : Action → Option Signature
  | function f _ => if f.packaging = .unsigned then none else some f.signature
  | bound of positional keyword _ =>
    match signature? of with
    | some s => s.bindAhead positional.length (keyword.map (·.1))
    | none => none
  | wrapper of _ => signature? of
  | length => some [⟨"obj", .positionalOnly, false⟩]
  | dictionary => none
  | value _ _ => none

/-- Whether a callable is handed a completion: if its signature has a third place or cannot be
read. -/
def acceptsCompletion (a : Action) : Bool :=
  match a.signature? with
  | some s => s.hasThirdPlace
  | none => true

def defaultOutput (a : Action) : Value := a.attributes.defaultOutput.getD .null

end Action

end Conductor
