import Conductor.Value.Basic

/-!
# Signatures

What a callable says about its parameters, before it is called. An action takes a completion when
its signature cannot be read, when it takes any number of positional arguments, or when it has room
for a third one. Binding arguments in advance removes the parameters they fill; a parameter bound by
name, and every later one, can from then on only be given by name.
-/

namespace Conductor

inductive ParameterKind where
  | positionalOnly
  | standard
  | varPositional
  | keywordOnly
  | varKeyword
  deriving DecidableEq, Repr

/-- A parameter of a function. A default, where there is one, is null. -/
structure Parameter where
  name : String
  kind : ParameterKind := .standard
  hasDefault : Bool := false
  deriving DecidableEq, Repr

abbrev Signature := List Parameter

namespace Parameter

def isPositional (p : Parameter) : Bool :=
  p.kind = .positionalOnly || p.kind = .standard

end Parameter

namespace Signature

def positionalCount (s : Signature) : Nat := (s.filter Parameter.isPositional).length

def hasVarPositional (s : Signature) : Bool := s.any (·.kind = .varPositional)

def hasVarKeyword (s : Signature) : Bool := s.any (·.kind = .varKeyword)

def hasThirdPlace (s : Signature) : Bool := s.hasVarPositional || 3 ≤ s.positionalCount

/-- The parameters left after `count` positional arguments were placed, with the names of the
parameters they filled; `none` if there are too many or one of them is also bound by name. -/
def placePositional (keywords : List String) : Nat → Signature → Option (List String × Signature)
  | 0, s => some ([], s)
  | _ + 1, [] => none
  | n + 1, p :: rest =>
    match p.kind with
    | .keywordOnly | .varKeyword => none
    | .varPositional => some ([p.name], rest)
    | .positionalOnly =>
      (placePositional keywords n rest).map fun (names, s) => (p.name :: names, s)
    | .standard =>
      if p.name ∈ keywords then none
      else (placePositional keywords n rest).map fun (names, s) => (p.name :: names, s)

/-- The names that bound arguments fill: `none` if they do not fit. A keyword may not name a
positional-only parameter that is still open, and needs a parameter of its name or a place for any
keyword. -/
def boundNames (s : Signature) (count : Nat) (keywords : List String) : Option (List String) :=
  match placePositional keywords count s with
  | none => none
  | some (filled, rest) =>
    if rest.any fun p => p.kind = .positionalOnly && p.name ∈ keywords then none
    else
      let named := keywords.filter fun k => rest.any fun p =>
        (p.kind = .standard || p.kind = .keywordOnly) && p.name = k
      let others := keywords.filter fun k => !(k ∈ named)
      if others.isEmpty then some (filled ++ named)
      else (rest.find? (·.kind = .varKeyword)).map fun p => filled ++ named ++ [p.name]

/-- The parameters that stay open once names are bound. From the first parameter bound by keyword
on, `keywordOnly` is set: single parameters become keyword-only, and no other positional argument
is taken. -/
def openParameters (filled keywords : List String) (keywordOnly : Bool) : Signature → Signature
  | [] => []
  | p :: rest =>
    match p.kind with
    | .positionalOnly =>
      if p.name ∈ filled then openParameters filled keywords keywordOnly rest
      else p :: openParameters filled keywords keywordOnly rest
    | .standard =>
      if p.name ∈ filled then
        if p.name ∈ keywords then
          { p with kind := .keywordOnly, hasDefault := true }
            :: openParameters filled keywords true rest
        else openParameters filled keywords keywordOnly rest
      else if keywordOnly then
        { p with kind := .keywordOnly } :: openParameters filled keywords keywordOnly rest
      else p :: openParameters filled keywords keywordOnly rest
    | .varPositional =>
      if keywordOnly then openParameters filled keywords keywordOnly rest
      else p :: openParameters filled keywords keywordOnly rest
    | .keywordOnly =>
      { p with hasDefault := p.hasDefault || p.name ∈ filled }
        :: openParameters filled keywords keywordOnly rest
    | .varKeyword => p :: openParameters filled keywords keywordOnly rest

/-- The signature left when arguments are bound in advance; `none` if they do not fit. -/
def bindAhead (s : Signature) (count : Nat) (keywords : List String) : Option Signature :=
  (s.boundNames count keywords).map fun filled => openParameters filled keywords false s

end Signature

end Conductor
