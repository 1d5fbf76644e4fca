import Conductor.Proofs.Plain
import Conductor.Proofs.Unread

/-!
# Direct recursion

What a run without groups comes to can be told by a recursion over the tree, with no task, no future and no
queue: every node is called in its turn, its last completion is merged, and the branch that this selects is
gone through before the next node is. An error ends all of it.
-/

namespace Conductor

mutual

/-- Whether there is no list among the entries of a branch list, nor of one that an output leads to. -/
def Entry.isFlat : Entry → Bool
  | .node _ none => true
  | .node _ (some routes) => areFlatRoutes routes
  | .nested _ => false

def areFlat : List Entry → Bool
  | [] => true
  | e :: rest => e.isFlat && areFlat rest

def areFlatRoutes : List (Key × Branch) → Bool
  | [] => true
  | (_, b) :: rest => b.isFlat && areFlatRoutes rest

def Branch.isFlat : Branch → Bool
  | .list entries => areFlat entries
  | .raw _ => true

end

/-- What a direct recursion comes to: the state in which the actions leave things, the calls with the args
that they got, the nodes executed, and the error that has ended it. -/
structure Evaluation where
  world : World
  calls : List (Head × Entries) := []
  executed : List Head := []
  error : Option Raised := none

/-- Goes on unless an error has ended all. -/
def Evaluation.andThen (first : Evaluation) (next : World → Evaluation) : Evaluation :=
  match first.error with
  | some _ => first
  | none =>
    let rest := next first.world
    { rest with calls := first.calls ++ rest.calls, executed := first.executed ++ rest.executed }

namespace World

def orRaise {α : Type} : Except Fault α × World → Except Raised α × World
  | (.ok x, w) => (.ok x, w)
  | (.error f, w) =>
    let (e, w) := w.raise f
    (.error e, w)

def mergeReport (args : DictRef) (x : Reported) (w : World) : Except Fault Result × World :=
  match w.resultOf "payload" x with
  | .error f => (.error f, w)
  | .ok r =>
    match w.heap.merge args r.payload with
    | .error f => (.error f, w)
    | .ok heap => (.ok r, { w with heap })

def attempt (plan : Plan) (args : DictRef) (node : Node) (w : World) : Except Raised Result × World :=
  let (completion, w) := w.newCompletion (descriptor plan node .sequential)
  let action := plan.tree.actionFor node
  let taken : List Value := if action.acceptsCompletion then [.completion .sequential completion] else []
  match w.invoke action ([.dict args, .store] ++ taken) with
  | (.error e, w) => (.error e, w)
  | (.ok _, w) =>
    match w.collectReport completion with
    | (.error f, w) => orRaise (.error f, w)
    | (.ok x, w) => orRaise (w.mergeReport args x)

def endWith (w : World) (f : Fault) : Evaluation where
  world := (w.raise f).2
  error := some (w.raise f).1

def undeclared (w : World) (head : Head) (path : Value) (declared : List Key) : Fault :=
  .undeclaredOutput head.name head.path.data (w.heap.read path) (declared.map .ofKey)

def notBranch (w : World) (head : Head) (path : Value) : Fault := .outputNotBranch head.name (w.heap.read path)

variable (plan : Plan) (args : DictRef)

mutual

/-- Goes through entries one after the other. -/
def evaluate : List Entry → World → Evaluation
  | [], w => { world := w }
  | e :: rest, w => (evaluateEntry e w).andThen (evaluate rest)

/-- Calls a node, and goes through the branch that it selects. A group is left out. -/
def evaluateEntry : Entry → World → Evaluation
  | .node head outputs, w =>
    match attempt plan args ⟨head, outputs⟩ w with
    | (.error e, u) => { world := u, calls := [(head, w.heap.dict args)], error := some e }
    | (.ok r, u) =>
      { world := u, calls := [(head, w.heap.dict args)], executed := [head] : Evaluation }.andThen
        (evaluateOutputs head r.path outputs)
  | .nested _, w => { world := w }

/-- Goes through the branch that a path selects among the outputs of a node: none without a path. -/
def evaluateOutputs (head : Head) (path : Value) : Option (List (Key × Branch)) → World → Evaluation
  | none, w =>
    match path with
    | .atom .null => { world := w }
    | path => w.endWith (w.undeclared head path [])
  | some routes, w =>
    match path with
    | .atom .null => { world := w }
    | path => evaluateRoutes head path (routes.map (·.1)) routes w

/-- Goes through the branch that a path leads to, looking for it among the routes of a node. -/
def evaluateRoutes (head : Head) (path : Value) (declared : List Key) :
    List (Key × Branch) → World → Evaluation
  | [], w => w.endWith (w.undeclared head path declared)
  | (k, b) :: rest, w =>
    match Template.keyOf path with
    | .error f => w.endWith f
    | .ok key => if k.same key then evaluateBranch head path b w else evaluateRoutes head path declared rest w

def evaluateBranch (head : Head) (path : Value) : Branch → World → Evaluation
  | .list entries, w => evaluate entries w
  | .raw _, w => w.endWith (w.notBranch head path)

end

variable {plan args} {head : Head} {path : Value} {w : World}

/-- Looking through the routes of a node comes to the first that has the key. -/
theorem evaluateRoutes_eq {declared : List Key} {routes : List (Key × Branch)} {key : Key}
    (named : Template.keyOf path = .ok key) : evaluateRoutes plan args head path declared routes w =
      match routes.find? fun r => r.1.same key with
      | none => w.endWith (w.undeclared head path declared)
      | some (_, b) => evaluateBranch plan args head path b w := by
  induction routes with
  | nil => rfl
  | cons r rest ih =>
    obtain ⟨k, b⟩ := r
    cases same : k.same key with
    | true => simp only [evaluateRoutes, named, List.find?_cons, same, if_true]
    | false => simpa only [evaluateRoutes, named, List.find?_cons, same, Bool.false_eq_true, if_false] using ih

/-- An output of a node with routes selects the branch list of the first route that has its key. -/
theorem selected_routes {routes : List (Key × Branch)} {r : Result} (other : r.path ≠ .atom .null) :
    w.selected ⟨head, some routes⟩ r =
      if routes.isEmpty then .error (w.undeclared head r.path (routes.map (·.1)))
      else (Template.keyOf r.path).bind fun key =>
        match routes.find? fun r => r.1.same key with
        | none => .error (w.undeclared head r.path (routes.map (·.1)))
        | some (declared, .list entries) => .ok (some (declared, entries))
        | some (_, .raw _) => .error (w.notBranch head r.path) := by
  unfold World.selected
  split
  · rename_i null
    exact absurd null other
  · rfl

/-- The recursion looks among the routes of a node for what a run selects. -/
theorem evaluateRoutes_selected (routes : List (Key × Branch)) (r : Result) (other : r.path ≠ .atom .null) :
    evaluateRoutes plan args head r.path (routes.map (·.1)) routes w =
      match w.selected ⟨head, some routes⟩ r with
      | .error f => w.endWith f
      | .ok none => { world := w }
      | .ok (some (_, entries)) => evaluate plan args entries w := by
  rw [selected_routes other]
  cases routes with
  | nil => rfl
  | cons first rest =>
    rw [if_neg (by simp)]
    cases named : Template.keyOf r.path with
    | error f => simp only [evaluateRoutes, named, Except.bind]
    | ok key =>
      rw [evaluateRoutes_eq named]
      simp only [Except.bind]
      cases (first :: rest).find? fun r => r.1.same key with
      | none => rfl
      | some found =>
        obtain ⟨declared, b⟩ := found
        cases b <;> simp only [evaluateBranch]

theorem evaluateOutputs_eq (head : Head) (outputs : Option (List (Key × Branch))) (r : Result) :
    evaluateOutputs plan args head r.path outputs w =
      match w.selected ⟨head, outputs⟩ r with
      | .error f => w.endWith f
      | .ok none => { world := w }
      | .ok (some (_, entries)) => evaluate plan args entries w := by
  by_cases null : r.path = .atom .null
  · have selected : w.selected ⟨head, outputs⟩ r = .ok none := by rw [World.selected, null]
    rw [selected]
    cases outputs <;> simp only [evaluateOutputs, null]
  · cases outputs with
    | none =>
      have selected : w.selected ⟨head, none⟩ r = .error (w.undeclared head r.path []) := by
        unfold World.selected
        split
        · rename_i null'
          exact absurd null' null
        · rfl
      rw [selected]
      unfold evaluateOutputs
      split
      · rename_i null'
        exact absurd null' null
      · rfl
    | some routes =>
      rw [← evaluateRoutes_selected routes r null]
      unfold evaluateOutputs
      split
      · rename_i null'
        exact absurd null' null
      · rfl

end World

end Conductor
