import Conductor.Proofs.Duties
import Conductor.Proofs.Occurrences
import Conductor.Proofs.Rejections
import Conductor.Proofs.Selection

/-!
# Routing

Where an output leads is told by the graph literal. When a run takes up what a node has completed with, it merges the
payload, and then it looks at the mapping that belongs to the action where it occurs: the run goes on with the branch
that is compiled from the value of the output and with no other one, or it is rejected if there is no such value or
the value is no sequence.
-/

namespace Conductor.World

open Conductor.Graph

variable {plan : Plan} {w w' w₁ : World} {run : RunId} {n : Node} {r : Result} {call : Call} {body : Option FutureId}
  {t : FutureId} {stack : List Frame} {f : Fault} {declared key : Key} {entries : List Entry} {root : List Item}
  {outputs : Option (List (Key × Item))}

/-- Whether a run takes up in the next step what a node has completed with, once the machine has come to the second
state within that step: the call of a sequential node has given back, or what it gave back has ended, or the
completion of a member has settled. -/
inductive TakesUp (plan : Plan) (run : RunId) (w : World) : Node → Result → World → Prop where
  | called {n : Node} {r : Result} {t : FutureId} {stack : List Frame} {type : String} {w₀ w₁ : World}
      (here : w.focus = .enter t (.sequential run n) stack)
      (answered : w.answer plan run n .sequential = (.ok (.plain type), w₀))
      (collected : w₀.collectReport w.completions.size = (.ok (.result r), w₁)) : TakesUp plan run w n r w₁
  | returned {call : Call} {r : Result} {t : FutureId} {stack : List Frame} {v : Yield} {w₁ : World}
      (here : w.focus = .leave t (.ok v) (.returning run call :: stack))
      (collected : (w.note run (.ended call.node.head)).collectReport call.completion = (.ok (.result r), w₁)) :
      TakesUp plan run w call.node r w₁
  | reported {call : Call} {r : Result} {t : FutureId} {stack : List Frame} {body : Option FutureId}
      (here : w.focus = .leave t (.ok (.reported (.result r))) (.completing run call body :: stack)) :
      TakesUp plan run w call.node r w

/-- What a node that has completed leaves: its payload is merged into the args, and it is marked as executed. -/
structure Kept (run : RunId) (n : Node) (r : Result) (w w' : World) : Prop where
  merged : w.heap.merge (w.argsOf run) r.payload = .ok w'.heap
  executed : (w'.nodeState n).executed
  output : (w'.nodeState n).output = r.payload
  outputPath : (w'.nodeState n).outputPath = r.path

/-- Whether the machine goes on by rejecting a run with a fault. -/
structure Rejects (plan : Plan) (run : RunId) (f : Fault) (w w' : World) : Prop where
  steps : ∃ v, w.step plan = some v ∧ v.step plan = some w'
  rejected : ∃ ms e, w'.status run = .rejected ms e ∧ e.fault = f

/-- Whether the machine goes on with the branch list of an output of a node, and with nothing else below the node:
whatever the run calls there from then on lies in that list, which is done once the run has resolved. -/
structure Enters (plan : Plan) (run : RunId) (n : Node) (declared : Key) (entries : List Entry) (w : World) : Prop where
  next : ∃ v t stack, w.step plan = some v ∧
    v.focus = .enter t (.branches run (n.path ++ [.output declared]) 0 entries) stack
  branch : plan.tree.BranchAt (n.path ++ [.output declared]) entries
  only : ∀ u, Moves plan w u → ∀ h args, (run, .called h args) ∈ u.notes → n.path <+: h.path →
    h = n.head ∨ n.path ++ [.output declared] <+: h.path
  whole : ∀ u ms, Moves plan w u → u.status run = .resolved ms → ∀ e ∈ entries, u.Done run e

/-! ### Taking up -/

theorem TakesUp.stood (takes : TakesUp plan run w n r w₁) (reached : Reachable plan w) (compiled : plan.tree.Compiled) :
    Stood plan w run n := by
  obtain ⟨aim, ordered⟩ := reached.ordered compiled
  cases takes with
  | called here _ _ =>
    obtain ⟨a, opens, -⟩ := ordered.entered here
    cases opens with
    | played own => cases own
    | sequential reached => exact reached.stood (Entry.mem_own_self n)
  | returned here _ =>
    obtain ⟨a, -, fits⟩ := ordered.left here
    cases fits with
    | played own _ => cases own
    | inside _ stood => exact stood
    | outside _ stood => exact stood
  | reported here =>
    obtain ⟨a, -, fits⟩ := ordered.left here
    cases fits with
    | played own _ => cases own
    | completing tended => exact tended.stood

/-- If the run has not settled, the step goes on from where the result was taken up. -/
theorem TakesUp.step (takes : TakesUp plan run w n r w₁) (running : w₁.isSettled run = false) :
    ∃ call body t stack, call.node = n ∧
      w.step plan = some (w₁.finishCall plan run call (.result r) body t stack) := by
  cases takes with
  | @called _ _ t stack type w₀ _ here answered collected =>
    have entered : ∃ started, w.enterSequential plan run n t stack
        = w₀.collectCall plan run ⟨n, w.completions.size, started⟩ t stack := by
      unfold answer at answered
      unfold enterSequential
      dsimp only at answered ⊢
      exact ⟨_, by rw [answered]; rfl⟩
    obtain ⟨started, entered⟩ := entered
    refine ⟨⟨n, w.completions.size, started⟩, none, t, stack, rfl, ?_⟩
    rw [World.step, here]
    dsimp only
    rw [enterRoutine, entered, collectCall, collected]
    simp [running]
  | @returned call _ t stack _ _ here collected =>
    refine ⟨call, none, t, stack, rfl, ?_⟩
    rw [World.step, here]
    dsimp only
    rw [resumeFrame, collectCall, collected]
    simp [running]
  | @reported call _ t stack body here =>
    refine ⟨call, body, t, stack, rfl, ?_⟩
    rw [World.step, here]
    dsimp only
    rw [resumeFrame]
    simp [running]

theorem finishCall_follows {x : Conductor.Reported} {t' : FutureId} {stack' : List Frame}
    (there : (w.finishCall plan run call x body t stack).focus = .enter t' (.follow run n r) stack') :
    x = .result r := by
  unfold finishCall at there
  split at there
  · cases there
  · rename_i ok
    obtain ⟨-, routine, -⟩ := Focus.enter.inj there
    obtain ⟨-, -, rfl⟩ := Routine.follow.inj routine
    exact resultOf_result (completeReport_ok ok).1

theorem collectCall_follows {t' : FutureId} {stack' : List Frame}
    (there : (w.collectCall plan run call t stack).focus = .enter t' (.follow run n r) stack') :
    ∃ w₁, w.collectReport call.completion = (.ok (.result r), w₁) ∧ w₁.isSettled run = false := by
  unfold collectCall at there
  split at there
  · cases there
  · rename_i x w₁ collected
    split at there
    · cases there
    · rename_i running
      obtain rfl := finishCall_follows there
      exact ⟨w₁, collected, by simpa using running⟩

theorem enterSequential_follows {t' : FutureId} {stack' : List Frame}
    (there : (w.enterSequential plan run n t stack).focus = .enter t' (.follow run n r) stack') :
    ∃ type w₀ w₁, w.answer plan run n .sequential = (.ok (.plain type), w₀) ∧
      w₀.collectReport w.completions.size = (.ok (.result r), w₁) ∧ w₁.isSettled run = false := by
  unfold enterSequential at there
  unfold answer
  dsimp only at there ⊢
  split at there
  · cases there
  · rename_i type w₀ answered
    obtain ⟨w₁, collected, running⟩ := collectCall_follows there
    exact ⟨type, w₀, w₁, answered, collected, running⟩
  · cases there
  · cases there

/-- Whatever a run notes to have completed with an output, it has taken up in one of these ways. -/
theorem takesUp_of_completed {h : Head} {payload : Entries} {notes : List Note} (m : Move plan w w')
    (noting : Noting plan w notes w') (new : (run, .completed h r payload) ∈ notes) (named : r.path ≠ .atom .null) :
    ∃ n w₁, n.head = h ∧ TakesUp plan run w n r w₁ ∧ w₁.isSettled run = false ∧ r.payload.isMergeable := by
  have stepped : w.step plan = some w' := by
    rcases m.counted with ⟨stepped, -⟩ | same
    · exact stepped
    · rw [course, course, noting.noted, List.filter_append, List.append_left_eq_self] at same
      exact absurd (List.mem_filter.mpr ⟨new, rfl⟩) (same ▸ List.not_mem_nil)
  cases noting.happens new with
  | @completed call _ _ body t stack mergeable reports there =>
    rw [step] at stepped
    generalize here : w.focus = focus at reports stepped
    cases reports with
    | sequential =>
      obtain rfl := Option.some.inj stepped
      obtain ⟨type, w₀, w₁, answered, collected, running⟩ := enterSequential_follows there
      exact ⟨call.node, w₁, rfl, .called here answered collected, running, mergeable⟩
    | returning =>
      obtain rfl := Option.some.inj stepped
      obtain ⟨w₁, collected, running⟩ := collectCall_follows there
      exact ⟨call.node, w₁, rfl, .returned here collected, running, mergeable⟩
    | @completing t' v body stack' =>
      obtain rfl := Option.some.inj stepped
      unfold resumeFrame at there
      dsimp only at there
      split at there
      · cases there
      · rename_i running
        have report := finishCall_follows there
        -- what is no report completes the node without an output
        cases v with
        | reported x =>
          obtain rfl : x = .result r := report
          exact ⟨call.node, w, rfl, .reported here, by simpa using running, mergeable⟩
        | nothing =>
          obtain rfl := Reported.result.inj report
          exact absurd rfl named
        | record other =>
          obtain rfl := Reported.result.inj report
          exact absurd rfl named

/-- A payload that can be merged is merged, and what the result selects is followed. -/
theorem finishCall_merged (mergeable : r.payload.isMergeable) (w : World) (plan : Plan) (run : RunId) (call : Call)
    (body : Option FutureId) (t : FutureId) (stack : List Frame) :
    ∃ w', w' = w.finishCall plan run call (.result r) body t stack ∧ Merged run call.node r w w' ∧
      w'.focus = .enter t (.follow run call.node r) (.following run call body :: stack) ∧
      ∃ payload, (run, .completed call.node.head r payload) ∈ w'.notes := by
  obtain ⟨w₁, payload, done, notes⟩ := complete_of_isMergeable mergeable w plan run call.node call.started
  have report : w.completeReport plan run call (.result r) = .ok (r, w₁) := by
    simp [completeReport, resultOf, done, bind, Except.bind, pure, Except.pure]
  have merged := complete_merged done
  refine ⟨w₁.enter t (.follow run call.node r) (.following run call body :: stack), by rw [finishCall, report],
    ⟨merged.heap, merged.records, merged.course, merged.nodes⟩, rfl, payload, ?_⟩
  change (run, Happening.completed call.node.head r payload) ∈ w₁.notes
  rw [notes]
  exact List.mem_cons_self

theorem Merged.kept (merged : Merged run n r w w') (known : n.slot < w'.nodes.size) : Kept run n r w w' := by
  obtain ⟨ms, nodes⟩ := merged.nodes
  have known' : n.slot < w.nodes.size := by rwa [nodes, Array.size_modify] at known
  have shown : w'.nodeState n = { w.nodes[n.slot] with
      executing := false, executed := true, output := r.payload, outputPath := r.path, duration := ms } := by
    simp [nodeState, nodes, known', Array.getElem_modify]
  exact ⟨merged.heap, by rw [shown], by rw [shown], by rw [shown]⟩

theorem Kept.aside {w₂ : World} (kept : Kept run n r w w') (aside : Aside w' w₂) : Kept run n r w w₂ := by
  have same : w₂.nodeState n = w'.nodeState n := by rw [nodeState, aside.nodes, nodeState]
  exact ⟨aside.heap ▸ kept.merged, same ▸ kept.executed, same ▸ kept.output, same ▸ kept.outputPath⟩

/-- What a running run takes up is merged, and the run goes on to what it selects. -/
theorem TakesUp.completes {graph : Item} (compiled : Graph.compile graph = .ok plan.tree) (reached : Reachable plan w)
    (sized : w.nodes.size = plan.tree.nodeCount) (takes : TakesUp plan run w n r w₁)
    (running : w₁.isSettled run = false) (mergeable : r.payload.isMergeable) :
    ∃ w' call body t stack, call.node = n ∧ w.step plan = some w' ∧ Kept run n r w₁ w' ∧
      w'.focus = .enter t (.follow run call.node r) (.following run call body :: stack) ∧
      w'.isSettled run = false ∧ ∃ payload, (run, .completed n.head r payload) ∈ w'.notes := by
  have starts : w.focus.starts = false := by
    cases takes with
    | called here _ _ => rw [here]; rfl
    | returned here _ => rw [here]; rfl
    | reported here => rw [here]; rfl
  have stood := takes.stood reached (Tree.compiled_of_compile compiled)
  obtain ⟨call, body, t, stack, rfl, stepped⟩ := takes.step running
  obtain ⟨w', ends, merged, here, completed⟩ := finishCall_merged mergeable w₁ plan run call body t stack
  rw [← ends] at stepped
  have known : call.node.slot < w'.nodes.size := by
    rw [(step_phases stepped starts).size, sized]
    exact Tree.slot_lt_of_compile compiled stood.mem
  have running' : w'.isSettled run = false := by rwa [isSettled_congr merged.records]
  exact ⟨w', call, body, t, stack, rfl, stepped, merged.kept known, here, running', completed⟩

/-! ### What is followed -/

theorem selected_eq (named : r.path ≠ .atom .null) (hashed : Template.keyOf r.path = .ok key) :
    w.selected n r = match n.route? key with
      | none => .error (.undeclaredOutput n.name n.path.data (w.heap.read r.path) (n.outputNames.map .ofKey))
      | some (declared, .list entries) => .ok (some (declared, entries))
      | some (_, .raw _) => .error (.outputNotBranch n.name (w.heap.read r.path)) := by
  unfold selected
  split
  · rename_i null
    exact absurd null named
  · dsimp only
    split
    · rename_i empty
      rw [Node.route?, List.isEmpty_iff.mp empty]
      rfl
    · rw [hashed]
      rfl

/-- A run that cannot follow an output is rejected, and nothing else is done. -/
theorem rejects_of_selected (here : w.focus = .enter t (.follow run call.node r) (.following run call body :: stack))
    (failed : w.selected call.node r = .error f) (known : (w.record? run).isSome) (running : w.isSettled run = false) :
    ∃ w', Rejects plan run f w w' ∧ Aside w w' := by
  have ordinary : f.isOrdinary := by simp [Fault.isOrdinary, selected_nature failed]
  obtain ⟨v, told, aside, after⟩ : ∃ v, v = ((w.raise f).2.note run (.failed call.node.head (w.raise f).1)).leave t
      (.error (w.raise f).1) (.following run call body :: stack) ∧ Aside w v ∧ v.records = w.records :=
    ⟨_, rfl, ((Aside.raise f).trans (.note run rfl)).leave _, rfl⟩
  have first : w.step plan = some v := by
    rw [step, here]
    dsimp only
    rw [enterRoutine, failed, told]
  have focus : v.focus = .leave t (.error (w.raise f).1) (.following run call body :: stack) := by rw [told]; rfl
  have second : v.step plan = some (v.passFailure plan run call.node t stack (w.raise f).1) := by
    rw [step, focus]
    rfl
  obtain ⟨notes, losing⟩ := handleFailure_catching plan run call.node (w.raise f).1 v
  obtain ⟨ms, rejected⟩ := losing.rejects ordinary (by rwa [record?_congr after]) (by rwa [isSettled_congr after])
  exact ⟨_, ⟨⟨v, first, second⟩, ms, _, rejected, rfl⟩, aside.trans Aside.passFailure⟩

/-- What a node has selected is followed, and nothing that its other outputs lead to. -/
theorem enters_of_selected (compiled : plan.tree.Compiled) (reached : Reachable plan w) (stood : Stood plan w run n)
    (here : w.focus = .enter t (.follow run n r) stack) {payload : Entries}
    (completed : (run, .completed n.head r payload) ∈ w.notes) (selects : n.Selects r declared entries) :
    Enters plan run n declared entries w := by
  refine ⟨⟨w.enter t (.branches run (n.path ++ [.output declared]) 0 entries) stack, t, stack, ?_, rfl⟩, ?_,
    fun u moves h args called along => ?_, fun u ms moves resolved e member => ?_⟩
  · obtain ⟨named, key, hashed, route⟩ := selects
    rw [step, here]
    dsimp only
    rw [enterRoutine, selected_eq named hashed, route]
  · obtain ⟨-, key, -, route⟩ := selects
    exact stood.places.branchAt route
  · have reached' := reached.moves moves
    obtain ⟨m, rfl, stood'⟩ := reached'.stood compiled called
    rcases (stood'.comes compiled).toward compiled (stood.places.entryAt compiled) along with ⟨-, same⟩ | toward
    · exact .inl (Tree.entry_injective same ▸ rfl)
    · -- the node has completed only once, so that what it selected is the output at hand
      generalize own : n.entry = x at toward
      cases toward with
      | nested _ _ => cases own
      | selected completed' selects' _ way =>
        obtain rfl := Tree.entry_injective own
        have noted := (moves.grown reached).subset_notes completed
        obtain ⟨rfl, -⟩ := reached'.completed_once compiled noted completed'
        obtain ⟨rfl, -⟩ := selects.unique selects'
        exact .inr ((List.prefix_append _ _).trans way)
  · have reached' := reached.moves moves
    have noted := (moves.grown reached).subset_notes completed
    obtain ⟨args, called⟩ := reached'.completed_called compiled (List.mem_filter.mpr ⟨noted, rfl⟩)
    obtain ⟨m, within, own, r', ran, routed⟩ := reached'.resolved_ran compiled resolved (List.mem_of_mem_filter called)
    obtain rfl := compiled.eq_of_head within stood.mem own
    obtain ⟨payload', completed'⟩ := ran.completed
    obtain ⟨rfl, -⟩ := reached'.completed_once compiled noted completed'
    rcases routed with null | ⟨declared', inner, selects', all⟩
    · exact absurd null selects.1
    · obtain ⟨-, rfl⟩ := selects.unique selects'
      exact all e member

/-- Where an output leads is told by the graph literal. When a running run takes up what an action has completed with,
the payload is merged and the node marked, and then the run goes on with just the branch that is compiled from what the
literal declares under the output. It is rejected if the literal declares nothing under it, or no sequence. -/
theorem output_is_routed_as_written {graph : Item} (walked : graph.walk = .ok root)
    (compiled : Graph.compile graph = .ok plan.tree) (occurs : ActionAt root n.path outputs)
    (reached : Reachable plan w) (sized : w.nodes.size = plan.tree.nodeCount) (takes : TakesUp plan run w n r w₁)
    (running : w₁.isSettled run = false) (mergeable : r.payload.isMergeable) (named : r.path ≠ .atom .null)
    (hashed : Template.keyOf r.path = .ok key) :
    ∃ w', w.step plan = some w' ∧ Kept run n r w₁ w' ∧
      match leads outputs key with
      | none => ∃ w₂, Kept run n r w₁ w₂ ∧ Rejects plan run (.undeclaredOutput n.name n.path.data (w'.heap.read r.path)
          ((outputs.getD []).map fun o => .ofKey o.1)) w' w₂
      | some (_, none) => ∃ w₂, Kept run n r w₁ w₂ ∧
          Rejects plan run (.outputNotBranch n.name (w'.heap.read r.path)) w' w₂
      | some (declared, some inner) => ∃ d,
          Enters plan run n declared (compileList (n.path ++ [.output declared]) false 0 inner d).1 w' := by
  have compiled' := Tree.compiled_of_compile compiled
  have same : plan.tree = compileItems root := by
    rw [Graph.compile, walked] at compiled
    exact (Except.ok.inj compiled).symm
  have stood := takes.stood reached compiled'
  obtain ⟨d, routes⟩ := Tree.outputs_of_actionAt occurs (same ▸ stood.places) rfl
  obtain ⟨w', call, body, t, stack, rfl, stepped, kept, here, running', payload, completed⟩ :=
    takes.completes compiled reached sized running mergeable
  have reached' : Reachable plan w' := .move reached (.stepped stepped)
  have stood' := stood.later ((Move.stepped stepped).later reached compiled')
  have known : (w'.record? run).isSome := by
    have bound := reached'.recorded .complete completed rfl
    simp [record?, bound]
  refine ⟨w', stepped, kept, ?_⟩
  split
  · rename_i undeclared
    have failed := selected_eq (w := w') (n := call.node) named hashed
    rw [Tree.route?_undeclared routes undeclared, Tree.outputNames_of_compile routes, List.map_map] at failed
    obtain ⟨w₂, rejects, aside⟩ := rejects_of_selected here failed known running'
    exact ⟨w₂, kept.aside aside, rejects⟩
  · rename_i raw
    obtain ⟨value, route⟩ := Tree.route?_raw routes raw
    have failed := selected_eq (w := w') (n := call.node) named hashed
    rw [route] at failed
    obtain ⟨w₂, rejects, aside⟩ := rejects_of_selected here failed known running'
    exact ⟨w₂, kept.aside aside, rejects⟩
  · rename_i list
    obtain ⟨d', route⟩ := Tree.route?_list routes list
    exact ⟨d', enters_of_selected compiled' reached' stood' here completed ⟨named, key, hashed, route⟩⟩

/-- A member of a group that completes with the second of its outputs, under which there is no sequence. -/
def misroutingItems : List Item := [.list [
  .leaf (.object 0 0) (.function {
    label := "a"
    signature := [⟨"args", .standard, false⟩, ⟨"store", .standard, false⟩, ⟨"completion", .standard, false⟩]
    steps := [.call [.text "y"]] } {}),
  .mapping (.object 1 0) false [
    (.ofText "x", .list []),
    (.ofText "y", .leaf (.single (.int 5)) (.value (.atom (.int 5)) {}))]]]

def misrouting : Plan where
  tree := Graph.compileItems misroutingItems

/-- Whether the first member of the first group of a run is about to report the output "y". -/
def isMisrouting (w : World) : Bool :=
  match w.focus with
  | .leave _ (.ok (.reported (.result ⟨.atom (.text "y"), .atom .null, _⟩)))
      (.completing 0 ⟨⟨⟨_, _, .atom (.text "a"), [.entry 0, .entry 0], _⟩, _⟩, _, _⟩ _ :: _) => true
  | _ => false

/-- The run is rejected because of the value, after the member has been marked as executed. -/
theorem misrouted_output_rejects : ∃ w w' w₂ n, Reachable misrouting w ∧ w.step misrouting = some w' ∧
    n.path = [.entry 0, .entry 0] ∧ (w₂.nodeState n).executed ∧
    Rejects misrouting 0 (.outputNotBranch (.text "a") (.text "y")) w' w₂ := by
  have seen : (firstRun misrouting 15).isMisrouting = true := by decide +kernel
  have reached := reachable_firstRun misrouting 15
  have compiled : Graph.compile (.list misroutingItems) = .ok misrouting.tree := rfl
  have group : ListAt misroutingItems [.entry 0] _ := .nested .root (i := 0) rfl
  have sized : (firstRun misrouting 15).nodes.size = misrouting.tree.nodeCount := by decide +kernel
  have running : (firstRun misrouting 15).isSettled 0 = false := by decide +kernel
  generalize firstRun misrouting 15 = w at seen reached sized running
  unfold isMisrouting at seen
  split at seen
  · rename_i here
    obtain ⟨w', stepped, -, w₂, kept, rejects⟩ := output_is_routed_as_written rfl compiled ⟨_, _, 0, group, rfl, rfl⟩
      reached sized (.reported here) running rfl (by simp) rfl
    rw [Heap.read, Heap.readValue] at rejects
    exact ⟨w, w', w₂, _, reached, stepped, rfl, kept.executed, rejects⟩
  · cases seen

end Conductor.World
