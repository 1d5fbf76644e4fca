import Conductor.Number.Whole
import Conductor.View

/-!
# Reports

A report is the record of a run in a form that JSON can hold, with the tree of entries and the state
of every node. Names, output paths and declared outputs have to be texts, and the items of a path
numbers or texts; the first node that does not fit fails the report, inner nodes before the nodes
around them.
-/

namespace Conductor

/-- Something in a node that does not fit its field: where, and what kind of misfit. -/
structure Misfit where
  location : List Datum
  kind : String

inductive EntryReport where
  | action (name : String) (path : List Datum) (outputPath : Option String)
      (outputs : Option (List (String × Option (List EntryReport)))) (state : NodeView)
      (args output : Datum)
  | group (isConcurrent : Bool) (entries : List EntryReport)

/-- The report of a run. Of the error of a rejected run it has the text and the name of its class. -/
structure RunReport where
  status : Status
  isExecuting : Bool
  duration : Nat
  args : Datum
  error : Option String
  errorType : Option String
  branches : List EntryReport

namespace Report

def continuation (b : UInt8) : Bool := 0x80 ≤ b && b < 0xc0

/-- Bytes as a text, if they are well formed. -/
def decode (bs : List UInt8) : Option String := String.fromUTF8? ⟨bs.toArray⟩

/-- A datum as a text. Bytes are read as UTF-8. -/
def text (d : Datum) : Except String String :=
  match d with
  | .atom (.text s) => .ok s
  | .atom (.bytes bs) =>
    match decode bs with
    | some s => .ok s
    | none => .error "string_unicode"
  | _ => .error "string_type"

/-- The bounds within which a number with a fraction part of zero is taken as a whole number. -/
def wordLimit : Int := 0x8000000000000000

def wholeNumber (d : Datum) : Except String Int :=
  match d with
  | .atom (.int n) => .ok n
  | .atom (.bool b) => .ok (if b then 1 else 0)
  | .atom (.nan _) => .error "finite_number"
  | .atom (.float x) =>
    if x.isInfinite then .error "finite_number"
    else match x.toInt? with
      | none => .error "int_from_float"
      | some n => if -wordLimit < n && n < wordLimit then .ok n else .error "int_parsing_size"
  | .atom (.text s) =>
    match Number.wholeOfText? s with
    | some n => .ok n
    | none => .error "int_parsing"
  | .atom (.bytes bs) =>
    match (decode bs).bind Number.wholeOfText? with
    | some n => .ok n
    | none => .error "int_parsing"
  | _ => .error "int_type"

/-- An item of a path as a number or a text: itself if it is one, else the number it can be read as,
else the text. -/
def pathItem (position : Nat) (d : Datum) : Except (List Misfit) Datum :=
  match d with
  | .atom (.int n) => .ok (.int n)
  | .atom (.text s) => .ok (.text s)
  | d =>
    match wholeNumber d, text d with
    | .ok n, _ => .ok (.int n)
    | .error _, .ok s => .ok (.text s)
    | .error asNumber, .error asText =>
      .error [⟨[.text "path", .int position, .text "int"], asNumber⟩,
        ⟨[.text "path", .int position, .text "str"], asText⟩]

def locationItem (k : Key) : Datum :=
  match k with
  | .atom (.text s) => .text s
  | .atom (.int n) => if -wordLimit ≤ n && n < wordLimit then .int n else .text k.shown
  | .atom (.bool b) => .int (if b then 1 else 0)
  | k => .text k.shown

def misfits {α : Type} (results : List (Except (List Misfit) α)) : List Misfit :=
  results.flatMap fun
    | .ok _ => []
    | .error ms => ms

def values {α : Type} (results : List (Except (List Misfit) α)) : List α :=
  results.filterMap fun
    | .ok a => some a
    | .error _ => none

def textField (field : String) (d : Datum) : Except (List Misfit) String :=
  match text d with
  | .ok s => .ok s
  | .error kind => .error [⟨[.text field], kind⟩]

def optionalTextField (field : String) (d : Datum) : Except (List Misfit) (Option String) :=
  match d with
  | .atom .null => .ok none
  | d => (textField field d).map some

def outputName (k : Key) : Except (List Misfit) String :=
  match text (.ofKey k) with
  | .ok s => .ok s
  | .error kind => .error [⟨[.text "outputs", locationItem k, .text "[key]"], kind⟩]

/-- Sets the entry of an output; of two outputs with one name the later stays. -/
def insertOutput (name : String) (entries : Option (List EntryReport)) :
    List (String × Option (List EntryReport)) → List (String × Option (List EntryReport))
  | [] => [(name, entries)]
  | (n, e) :: rest =>
    if n = name then (n, entries) :: rest else (n, e) :: insertOutput name entries rest

/-- The report of a node whose outputs are reported already. -/
def node (v : NodeView) (outputs : Option (List (Key × Option (List EntryReport)))) :
    Except (List Misfit) EntryReport :=
  let name := textField "name" v.node.name
  let path := v.node.path.data.zipIdx.map fun (d, i) => pathItem i d
  let outputPath := optionalTextField "output_path" v.outputPath
  let names := (outputs.getD []).map fun (k, _) => outputName k
  let found := misfits [name] ++ misfits path ++ misfits [outputPath] ++ misfits names
  match name, outputPath with
  | .ok name, .ok outputPath =>
    if found.isEmpty then
      let reported := outputs.map fun os =>
        ((values names).zip (os.map (·.2))).foldl (fun acc (n, e) => insertOutput n e acc) []
      .ok (.action name (values path) outputPath reported v
        (Datum.dict v.args).toJsonable v.output.toJsonable)
    else .error found
  | _, _ => .error found

mutual

def entry (w : World) (isGroup : Bool) : Entry → Except (List Misfit) EntryReport
  | .node head none => node (w.viewNode ⟨head, none⟩) none
  | .node head (some rs) => do
    let outputs ← routes w rs
    node (w.viewNode ⟨head, some rs⟩) (some outputs)
  | .nested es => do
    let reported ← entries w (!isGroup) es
    return .group (!isGroup) reported

def entries (w : World) (isGroup : Bool) : List Entry → Except (List Misfit) (List EntryReport)
  | [] => .ok []
  | e :: es => do
    let first ← entry w isGroup e
    let rest ← entries w isGroup es
    return first :: rest

def routes (w : World) :
    List (Key × Branch) → Except (List Misfit) (List (Key × Option (List EntryReport)))
  | [] => .ok []
  | (k, b) :: rest => do
    let first ← branch w b
    let others ← routes w rest
    return (k, first) :: others

/-- The report of where an output leads; an item that is no branch list has none. -/
def branch (w : World) : Branch → Except (List Misfit) (Option (List EntryReport))
  | .list es => do
    let reported ← entries w false es
    return some reported
  | .raw _ => .ok none

end

/-- A float that stands for a duration, as a whole number: the nearest, and of two the even one. -/
def wholeDuration (x : Binary64) : Datum :=
  match x.rounded? with
  | some n => .int n
  | none => .atom (.float x)

/-- What stands under a key of what is written out. Under the word for it a float is a duration. -/
def underKey (k : Key) (d : Datum) : Datum :=
  match d with
  | .atom (.float x) => if k.text? = some "duration" then wholeDuration x else d
  | d => d

mutual

/-- A reduced datum as it is written out: a number that JSON cannot write becomes null. -/
def written : Datum → Datum
  | .atom (.nan _) => .null
  | .atom (.float x) => if x.isInfinite then .null else .atom (.float x)
  | .list items => .list (writtenList items)
  | .dict pairs => .dict (writtenPairs pairs)
  | d => d

def writtenList : List Datum → List Datum
  | [] => []
  | d :: ds => written d :: writtenList ds

def writtenPairs : List (Key × Datum) → List (Key × Datum)
  | [] => []
  | (k, d) :: rest => (k, underKey k (written d)) :: writtenPairs rest

end

mutual

/-- How deep a reduced datum is nested, itself included. -/
def depth : Datum → Nat
  | .list items => depthOfList items + 1
  | .dict pairs => depthOfPairs pairs + 1
  | _ => 1

def depthOfList : List Datum → Nat
  | [] => 0
  | d :: ds => max (depth d) (depthOfList ds)

def depthOfPairs : List (Key × Datum) → Nat
  | [] => 0
  | (_, d) :: rest => max (depth d) (depthOfPairs rest)

end

def depthWithin : Datum → Nat
  | .dict pairs => depthOfPairs pairs
  | _ => 0

mutual

def depthOfEntry : EntryReport → Nat
  | .action _ _ _ outputs _ args output =>
    max (max (depthWithin args) (match output with | .atom .null => 0 | d => depth d))
      (match outputs with | none => 0 | some os => depthOfOutputs os) + 1
  | .group _ entries => depthOfEntries entries + 1

def depthOfEntries : List EntryReport → Nat
  | [] => 0
  | e :: es => max (depthOfEntry e) (depthOfEntries es)

def depthOfOutputs : List (String × Option (List EntryReport)) → Nat
  | [] => 0
  | (_, none) :: rest => depthOfOutputs rest
  | (_, some es) :: rest => max (depthOfEntries es) (depthOfOutputs rest)

end

def depthLimit : Nat := 254

def ofRecord (w : World) (t : Tree) (r : Record) : Except (List Misfit) RunReport := do
  let branches ← entries w false t.branches
  let error := r.status.error?.map (·.fault)
  return {
    status := r.status
    isExecuting := !r.status.isSettled
    duration := r.status.duration
    args := (Datum.dict (w.heap.readEntries (w.heap.dict r.args))).toJsonable
    error := error.map Fault.message
    errorType := error.map Fault.className
    branches }

end Report

def RunReport.isTooDeep (r : RunReport) : Bool :=
  Report.depthLimit < max (Report.depthWithin r.args) (Report.depthOfEntries r.branches)

end Conductor
