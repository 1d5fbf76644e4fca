import Conductor.Action.Basic

/-!
# Calls

Binding the arguments of a call to the parameters of a function, with the faults of a call that does
not fit, and unfolding a callable down to the function whose script is to run.
-/

namespace Conductor

namespace Signature

def namedParameters (s : Signature) : List String :=
  (s.filter fun p => p.kind = .standard || p.kind = .keywordOnly).map (·.name)

def positionals (s : Signature) : List Parameter := s.filter Parameter.isPositional

def missing (open_ : List Parameter) (given : List String) : List String :=
  (open_.filter fun p => !p.hasDefault && !(p.name ∈ given)).map (·.name)

/-- What stands against a keyword of a call: its parameter has a value already, or there is none of
that name and no place for any keyword. -/
def keywordFault? (s : Signature) (byPosition keywords : List String) (k : String) :
    Option ArityFault :=
  if k ∈ s.namedParameters then
    if k ∈ byPosition then some (.repeated k) else none
  else if s.hasVarKeyword then none
  else
    let misplaced := (s.filter fun p => p.kind = .positionalOnly && p.name ∈ keywords).map (·.name)
    some (if misplaced.isEmpty then .unexpectedKeyword k else .positionalOnly misplaced)

/-- What stands against a call of a function with parameters `s`, the first thing that is checked
first: the keywords one after the other, too many positional arguments, missing ones, missing
keyword-only ones. -/
def arityFault? (s : Signature) (count : Nat) (keywords : List String) : Option ArityFault :=
  let places := s.positionals
  let byPosition := (places.take count).map (·.name)
  let keywordOnly := s.filter (·.kind = .keywordOnly)
  match keywords.findSome? (s.keywordFault? byPosition keywords) with
  | some fault => some fault
  | none =>
    if !s.hasVarPositional && places.length < count then
      let defaults := (places.filter (·.hasDefault)).length
      let most := places.length
      let extra := (keywordOnly.filter fun p => p.name ∈ keywords).length
      some (.tooMany (most - defaults) most count extra)
    else
      let named := keywords.filter (· ∈ s.namedParameters)
      let lacking := missing (places.drop count) named
      if !lacking.isEmpty then some (.missing true lacking)
      else
        let lackingKeywords := missing keywordOnly named
        if lackingKeywords.isEmpty then none else some (.missing false lackingKeywords)

/-- The values of the positional parameters, then those taken beyond them. A parameter without an
argument has its default. -/
def positionalValues (s : Signature) (positional : List Value) (keyword : List (String × Value)) :
    List Value :=
  let places := s.positionals
  let filled := places.zipIdx.map fun (p, i) =>
    match positional[i]? with
    | some v => v
    | none =>
      if p.kind = .standard then ((keyword.find? (·.1 = p.name)).map (·.2)).getD .null else .null
  filled ++ (if s.hasVarPositional then positional.drop places.length else [])

end Signature

/-- The values a script works on. -/
structure Scope where
  args : Value
  store : Value
  completion : Value
  deriving Inhabited

structure Prepared where
  function : Function
  scope : Scope

namespace Function

def qualifiedName (f : Function) : String :=
  match f.packaging with
  | .object | .unsigned => "Callable.__call__"
  | .constructor => f.label ++ ".__init__"
  | _ => f.label

/-- The parameter that a packaging puts before the visible ones, for the object that is called. Like
the ones after it, it may not be named where some parameter may not. -/
def ownParameter? (f : Function) : Option Parameter :=
  match f.packaging with
  | .function | .generator => none
  | .method | .object | .unsigned | .constructor =>
    let isUnnamed := f.signature.any fun p => p.kind = .positionalOnly
    some ⟨"self", if isUnnamed then .positionalOnly else .standard, false⟩

def parameters (f : Function) : Signature := f.ownParameter?.toList ++ f.signature

/-- Binds a call to the parameters of a function. -/
def prepare (f : Function) (positional : List Value) (keyword : List (String × Value)) :
    Except Fault Prepared :=
  let given := f.ownParameter?.toList.length + positional.length
  match f.parameters.arityFault? given (keyword.map (·.1)) with
  | some fault => .error (.arity f.qualifiedName fault)
  | none =>
    let values := f.signature.positionalValues positional keyword
    let at_ (i : Nat) : Value := values[f.offset + i]?.getD .null
    .ok ⟨f, ⟨at_ 0, at_ 1, at_ 2⟩⟩

end Function

namespace Action

def overKeywords (earlier later : List (String × Value)) : List (String × Value) :=
  earlier.map (fun e => (later.find? (·.1 = e.1)).getD e)
    ++ later.filter fun e => !earlier.any (·.1 = e.1)

/-- Binds arguments of a callable in advance. A callable that already binds some, and has nothing
attached, takes the new ones after its own. -/
def bindAhead (of : Action) (positional : List Value) (keyword : List (String × Value)) : Action :=
  match of with
  | bound inner first named attributes =>
    if attributes.isEmpty then
      bound inner (first ++ positional) (overKeywords named keyword) {}
    else bound of positional keyword {}
  | of => bound of positional keyword {}

/-- Unfolds a call down to the function it reaches. -/
def prepare : Action → List Value → List (String × Value) → Except Fault Prepared
  | function f _, positional, keyword => f.prepare positional keyword
  | bound of first named _, positional, keyword =>
    prepare of (first ++ positional) (overKeywords named keyword)
  | wrapper of _, positional, keyword =>
    match keyword with
    | [] => prepare of positional []
    | (k, _) :: _ =>
      .error (.arity ((definedName? of).getD wrapperName) (.unexpectedKeyword k))
  | length, positional, keyword =>
    .error (if keyword.isEmpty then .lengthArity positional.length else .lengthKeywords)
  | dictionary, positional, _ => .error (.dictArity positional.length)
  | value d _, _, _ => .error (.notCallable d.typeName)

end Action

end Conductor
