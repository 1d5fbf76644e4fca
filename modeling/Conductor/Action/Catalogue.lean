import Conductor.Action.Call
import Conductor.Value.Mapping

/-!
# The catalogue of actions

Actions are declared by name and made on first use, once each. Making one evaluates the values it
binds, makes the action it builds on, and attaches its attributes, which some kinds of callables
refuse.
-/

namespace Conductor

inductive Form where
  | script (packaging : Packaging)
  | bound (of : String) (positional : List Template) (keyword : List (String × Template))
  | wrapper (of : String)
  | builtin (name : String)
  | value (v : Template)

/-- A declared action. `attached` are attributes set one after the other, and then come the display
name and the default output, unless null. -/
structure Declaration where
  form : Form
  name : String
  isAsync : Bool := false
  signature : Signature := []
  offset : Nat := 0
  steps : List Step := []
  attached : List (String × Template) := []
  displayName : Template := .null
  defaultOutput : Template := .null

/-- An action that was made, with the token that is its identity. -/
structure Made where
  token : Nat
  action : Action

structure Catalogue where
  declarations : List (String × Declaration)
  made : List (String × Made) := []

namespace Action

def hasNull : Datum → Bool
  | .atom (.text s) => s.toList.any fun c => c.toNat = 0
  | _ => false

def isText : Datum → Bool
  | .atom (.text _) => true
  | _ => false

/-- The attributes of a callable after setting one of them, or the fault of setting it. -/
def attachTo (a : Action) (attributes : Attributes) (name : String) (v : Value) (d : Datum) :
    Except Fault Attributes :=
  let set : Attributes :=
    if name = "action_name" then { attributes with actionName := some d }
    else if name = "default_output" then { attributes with defaultOutput := some v }
    else if name = "__name__" then { attributes with name := some d }
    else attributes
  match a with
  | function f _ =>
    if f.packaging = .method then .error (.noAttribute "method" name)
    else if name = "__name__" ∧ f.packaging ∈ [.function, .generator] ∧ !isText d then
      .error .nameNotText
    else if name = "__name__" ∧ f.packaging = .constructor ∧ !isText d then
      .error (.classNameNotText f.label d.typeName)
    else if name = "__name__" ∧ f.packaging = .constructor ∧ hasNull d then
      .error .classNameWithNull
    else .ok set
  | bound _ _ _ _ => .ok set
  | wrapper _ _ => if name = "__name__" ∧ !isText d then .error .nameNotText else .ok set
  | length =>
    if name = "__name__" then .error (.readOnlyAttribute a.typeName name)
    else .error (.noAttribute a.typeName name)
  | dictionary => .error (.immutableType "dict" name)
  | value (.atom (.object _ _)) _ => .ok set
  | value _ _ => .error (.noAttribute a.typeName name)

def withAttributes (a : Action) (attributes : Attributes) : Action :=
  match a with
  | function f _ => function f attributes
  | bound of positional keyword _ => bound of positional keyword attributes
  | wrapper of _ => wrapper of attributes
  | value d _ => value d attributes
  | a => a

def attach (a : Action) : List (String × Template) → Heap → Except Fault Action × Heap
  | [], h => (.ok a, h)
  | (name, t) :: rest, h =>
    match t.make h with
    | (.error f, h) => (.error f, h)
    | (.ok v, h) =>
      match a.attachTo a.attributes name v (h.read v) with
      | .error f => (.error f, h)
      | .ok attributes => attach (a.withAttributes attributes) rest h

def isGiven : Template → Bool
  | .null => false
  | _ => true

def attachments (d : Declaration) : List (String × Template) :=
  d.attached
    ++ (if isGiven d.displayName then [("action_name", d.displayName)] else [])
    ++ (if isGiven d.defaultOutput then [("default_output", d.defaultOutput)] else [])

/-- The attributes that a wrapper takes over from what it wraps, whose name has to be a text. -/
def inherited (of : Action) : Except Fault Attributes :=
  match of.ownName with
  | some name =>
    if isText name then .ok { of.attributes with name := some name } else .error .nameNotText
  | none => .ok { of.attributes with name := none }

end Action

namespace Catalogue

def keep (c : Catalogue) (name : String) (a : Action) (h : Heap) : Made × Catalogue × Heap :=
  let (token, h) := h.newToken
  let made := ⟨token, a⟩
  (made, { c with made := (name, made) :: c.made }, h)

def makeKeywords : List (String × Template) → Heap →
    Except Fault (List (String × Value)) × Heap
  | [], h => (.ok [], h)
  | (name, t) :: rest, h =>
    match t.make h with
    | (.error f, h) => (.error f, h)
    | (.ok v, h) =>
      match makeKeywords rest h with
      | (.error f, h) => (.error f, h)
      | (.ok vs, h) => (.ok ((name, v) :: vs), h)

/-- Makes the action declared under a name, unless it was made before. `depth` bounds how many
actions build on one another. -/
def makeWithin (depth : Nat) (c : Catalogue) (name : String) (h : Heap) :
    Except Fault Made × Catalogue × Heap :=
  match c.made.lookup name with
  | some made => (.ok made, c, h)
  | none =>
    match depth, c.declarations.lookup name with
    | 0, _ | _, none => (.error (.missingKey (.text name)), c, h)
    | depth + 1, some d =>
      let finish (a : Action) (c : Catalogue) (h : Heap) : Except Fault Made × Catalogue × Heap :=
        match a.attach (Action.attachments d) h with
        | (.error f, h) => (.error f, c, h)
        | (.ok a, h) =>
          let (made, c, h) := c.keep name a h
          (.ok made, c, h)
      match d.form with
      | .script packaging =>
        if packaging = .constructor ∧ Action.hasNull (.text d.name) then
          (.error .classNameWithNull, c, h)
        else finish (.function ⟨d.name, packaging, d.isAsync, d.signature, d.offset, d.steps⟩ {}) c h
      | .bound of positional keyword =>
        match makeWithin depth c of h with
        | (.error f, c, h) => (.error f, c, h)
        | (.ok base, c, h) =>
          match Template.makeList positional h with
          | (.error f, h) => (.error f, c, h)
          | (.ok vs, h) =>
            match makeKeywords keyword h with
            | (.error f, h) => (.error f, c, h)
            | (.ok ks, h) =>
              match base.action with
              | .value _ _ => (.error (.badConstruction "the first argument must be callable"), c, h)
              | a => finish (a.bindAhead vs ks) c h
      | .wrapper of =>
        match makeWithin depth c of h with
        | (.error f, c, h) => (.error f, c, h)
        | (.ok base, c, h) =>
          match Action.inherited base.action with
          | .error f => (.error f, c, h)
          | .ok attributes => finish (.wrapper base.action attributes) c h
      | .builtin "dict" => finish .dictionary c h
      | .builtin _ => finish .length c h
      | .value t =>
        match t.make h with
        | (.error f, h) => (.error f, c, h)
        | (.ok v, h) => finish (.value (h.read v) {}) c h

def make (c : Catalogue) (name : String) (h : Heap) : Except Fault Made × Catalogue × Heap :=
  makeWithin (c.declarations.length + 1) c name h

end Catalogue

end Conductor
