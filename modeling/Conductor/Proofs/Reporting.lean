import Conductor.Report
import Conductor.Proofs.Addresses

/-!
# What a report shows

Where display names and the keys of outputs are texts, every record has a report, whatever its status and
whatever the nodes show. The report has the shape of the tree: its entries stand as the entries of the tree
do, and its nodes in depth-first order are the nodes of the tree in walk order, each with its state.
-/

namespace Conductor

structure NodeReport where
  name : String
  path : List Datum
  isAsync : Bool
  executing : Bool
  executed : Bool
  outputPath : Option String
  ms : Nat
  args : Datum
  output : Datum

namespace Report

mutual

def nodesOfEntry : EntryReport → List NodeReport
  | .action name path outputPath outputs state args output =>
    { name, path, isAsync := state.node.isAsync, executing := state.executing
      executed := state.executed, outputPath, ms := state.ms, args, output } ::
    (match outputs with
      | none => []
      | some routes => nodesOfOutputs routes)
  | .group _ entries => nodesOfEntries entries

def nodesOfEntries : List EntryReport → List NodeReport
  | [] => []
  | e :: es => nodesOfEntry e ++ nodesOfEntries es

def nodesOfOutputs : List (String × Option (List EntryReport)) → List NodeReport
  | [] => []
  | (_, none) :: rest => nodesOfOutputs rest
  | (_, some es) :: rest => nodesOfEntries es ++ nodesOfOutputs rest

end

end Report

def RunReport.nodes (r : RunReport) : List NodeReport := Report.nodesOfEntries r.branches

/-- Whether what a report says of a node is how the node stands. -/
structure NodeReport.Describes (r : NodeReport) (w : World) (n : Node) : Prop where
  name : n.name = .text r.name
  path : r.path = n.path.data
  isAsync : r.isAsync = n.isAsync
  executing : r.executing = (w.nodeState n).executing
  executed : r.executed = (w.nodeState n).executed
  outputPath : (w.nodeState n).outputPath = (r.outputPath.map Value.text).getD .null
  ms : r.ms = (w.nodeState n).duration
  args : r.args = (Datum.dict (w.heap.readEntries (w.nodeState n).args)).toJsonable
  output : r.output = (w.heap.read (w.nodeState n).output).toJsonable

def World.Listed (w : World) : List Node → List NodeReport → Prop := List.Forall₂ fun n r => r.Describes w n

mutual

/-- Whether an entry of a list, which is a group or not, has the shape of its report. -/
inductive Entry.Shown : Bool → Entry → EntryReport → Prop where
  | leaf {isGroup head name path outputPath state args output} (own : state.node = ⟨head, none⟩) :
      Entry.Shown isGroup (.node head none) (.action name path outputPath none state args output)
  | node {isGroup head routes name path outputPath outputs state args output}
      (own : state.node = ⟨head, some routes⟩) (behind : RoutesShown routes outputs) :
      Entry.Shown isGroup (.node head (some routes)) (.action name path outputPath (some outputs) state args output)
  /-- A list in a group is a sequence, and a list in a sequence a group. -/
  | nested {isGroup entries reports} (members : EntriesShown (!isGroup) entries reports) :
      Entry.Shown isGroup (.nested entries) (.group (!isGroup) reports)

inductive EntriesShown : Bool → List Entry → List EntryReport → Prop where
  | nil {isGroup} : EntriesShown isGroup [] []
  | cons {isGroup e r entries reports} (first : Entry.Shown isGroup e r)
      (rest : EntriesShown isGroup entries reports) : EntriesShown isGroup (e :: entries) (r :: reports)

/-- Whether outputs have the shapes of their reports, under the same keys in the same order. -/
inductive RoutesShown : List (Key × Branch) → List (String × Option (List EntryReport)) → Prop where
  | nil : RoutesShown [] []
  | cons {name b r routes outputs} (first : Branch.Shown b r) (rest : RoutesShown routes outputs) :
      RoutesShown ((.ofText name, b) :: routes) ((name, r) :: outputs)

/-- Whether what an output leads to has the shape of its report: none, if it is no branch list. -/
inductive Branch.Shown : Branch → Option (List EntryReport) → Prop where
  | list {entries reports} (behind : EntriesShown false entries reports) :
      Branch.Shown (.list entries) (some reports)
  | raw {item} : Branch.Shown (.raw item) none

end

/-- Whether the display names and the keys of outputs of a tree are texts. -/
structure Tree.Textual (t : Tree) : Prop where
  names : ∀ n ∈ t.nodes, ∃ s, n.name = .text s
  keys : ∀ n ∈ t.nodes, ∀ k ∈ n.outputNames, ∃ s, k = .ofText s

namespace Report

/-! ### Results side by side -/

section Results

variable {α β : Type} {f : α → Except (List Misfit) β} {g : α → β} {xs : List α}

@[simp] theorem misfits_ok (a : α) : misfits [.ok a] = [] := rfl

theorem misfits_nil (ok : ∀ x ∈ xs, f x = .ok (g x)) : misfits (xs.map f) = [] := by
  rw [misfits, List.flatMap_map, List.flatMap_eq_nil_iff]
  intro x member
  rw [ok x member]

theorem values_map (ok : ∀ x ∈ xs, f x = .ok (g x)) : values (xs.map f) = xs.map g := by
  rw [values, List.filterMap_map, ← List.filterMap_eq_map]
  refine List.filterMap_congr fun x member => ?_
  simp [ok x member]

end Results

theorem insertOutput_fresh {name : String} {r : Option (List EntryReport)}
    {acc : List (String × Option (List EntryReport))} (fresh : name ∉ acc.map (·.1)) :
    insertOutput name r acc = acc ++ [(name, r)] := by
  induction acc with
  | nil => rfl
  | cons first rest ih =>
    obtain ⟨known, e⟩ := first
    rw [List.map_cons, List.mem_cons, not_or] at fresh
    rw [insertOutput, if_neg (Ne.symm fresh.1), ih fresh.2, List.cons_append]

theorem insertOutput_all (outputs acc : List (String × Option (List EntryReport)))
    (apart : ((acc ++ outputs).map (·.1)).Nodup) :
    outputs.foldl (fun acc (n, e) => insertOutput n e acc) acc = acc ++ outputs := by
  induction outputs generalizing acc with
  | nil => simp
  | cons first rest ih =>
    obtain ⟨name, r⟩ := first
    have fresh : name ∉ acc.map (·.1) := by
      rw [List.map_append, List.map_cons] at apart
      exact fun known => List.disjoint_of_nodup_append apart known List.mem_cons_self
    rw [List.foldl_cons]
    simp only [insertOutput_fresh fresh]
    rw [ih _ (by simpa using apart), List.append_assoc, List.singleton_append]

def underTexts (outputs : List (Key × Option (List EntryReport))) : List (String × Option (List EntryReport)) :=
  outputs.map fun o => (o.1.asText, o.2)

structure Keyed (keys : List Key) : Prop where
  texts : ∀ k ∈ keys, ∃ s, k = .ofText s
  apart : keys.Pairwise fun k l => ¬ k.same l

theorem Keyed.names_ok {os : List (Key × Option (List EntryReport))} (keyed : Keyed (os.map (·.1))) :
    ∀ o ∈ os, outputName o.1 = .ok o.1.asText := by
  intro o member
  obtain ⟨s, text⟩ := keyed.texts o.1 (List.mem_map_of_mem member)
  rw [text]
  rfl

theorem Keyed.nodup {os : List (Key × Option (List EntryReport))} (keyed : Keyed (os.map (·.1))) :
    ((underTexts os).map (·.1)).Nodup := by
  have apart := keyed.apart
  rw [List.pairwise_map] at apart
  rw [underTexts, List.map_map, List.Nodup, List.pairwise_map]
  refine List.Pairwise.imp_of_mem (fun {o o'} member member' other => ?_) apart
  obtain ⟨s, text⟩ := keyed.texts o.1 (List.mem_map_of_mem member)
  obtain ⟨s', text'⟩ := keyed.texts o'.1 (List.mem_map_of_mem member')
  rw [text, text'] at other
  intro together
  have agree : (Key.ofText s).asText = (Key.ofText s').asText := by simpa [text, text'] using together
  rw [show s = s' from agree] at other
  exact other (Key.same_iff.mpr rfl)

theorem Keyed.reported {outputs : Option (List (Key × Option (List EntryReport)))}
    (keyed : Keyed ((outputs.getD []).map (·.1))) :
    (outputs.map fun os => ((values ((outputs.getD []).map fun o => outputName o.1)).zip
      (os.map (·.2))).foldl (fun acc (n, e) => insertOutput n e acc) []) = outputs.map underTexts := by
  cases outputs with
  | none => rfl
  | some os =>
    have keyed : Keyed (os.map (·.1)) := keyed
    rw [Option.getD_some, values_map keyed.names_ok, Option.map_some, Option.map_some, List.zip_map', ← underTexts,
      insertOutput_all (underTexts os) [] keyed.nodup, List.nil_append]

/-! ### Shapes -/

theorem node_shaped {v : NodeView} {outputs : Option (List (Key × Option (List EntryReport)))} {r : EntryReport}
    (keyed : Keyed ((outputs.getD []).map (·.1))) (made : node v outputs = .ok r) :
    ∃ name path outputPath args output,
      r = .action name path outputPath (outputs.map underTexts) v args output := by
  unfold node at made
  dsimp only at made
  rw [keyed.reported] at made
  split at made
  · split at made
    · exact ⟨_, _, _, _, _, (Except.ok.inj made).symm⟩
    · cases made
  · cases made

theorem entry_shaped (w : World) :
    (∀ (e : Entry), (∀ n ∈ e.nodes, Keyed n.outputNames) → ∀ isGroup r, entry w isGroup e = .ok r →
      e.Shown isGroup r) ∧
    (∀ (es : List Entry), (∀ n ∈ nodesOf es, Keyed n.outputNames) → ∀ isGroup rs,
      entries w isGroup es = .ok rs → EntriesShown isGroup es rs) ∧
    (∀ routes : List (Key × Branch), (∀ k ∈ routes.map (·.1), ∃ s, k = .ofText s) →
      (∀ n ∈ nodesOfRoutes routes, Keyed n.outputNames) → ∀ os, Report.routes w routes = .ok os →
      os.map (·.1) = routes.map (·.1) ∧ RoutesShown routes (underTexts os)) ∧
    (∀ b : Branch, (∀ n ∈ b.nodes, Keyed n.outputNames) → ∀ r, branch w b = .ok r → b.Shown r) := by
  refine Entry.nodes.mutual_induct _ _ _ _ ?node ?nested ?list ?raw ?nil ?cons ?noRoutes ?route
  case node =>
    intro head outputs ih keyed isGroup r made
    have own : Keyed (Node.outputNames ⟨head, outputs⟩) :=
      keyed _ (Tree.nodes_entry ⟨head, outputs⟩ ▸ List.mem_cons_self)
    cases outputs with
    | none =>
      have none : Keyed (((none : Option (List (Key × Option (List EntryReport)))).getD []).map (·.1)) := own
      obtain ⟨name, path, outputPath, args, output, rfl⟩ := node_shaped none made
      exact .leaf rfl
    | some routes =>
      rw [entry] at made
      obtain ⟨os, found, made⟩ := bind_ok made
      obtain ⟨same, shown⟩ := ih own.texts (fun n member =>
        keyed n (by simpa only [Entry.nodes] using List.mem_cons_of_mem _ member)) os found
      have own : Keyed (((some os).getD []).map (·.1)) := same ▸ own
      obtain ⟨name, path, outputPath, args, output, rfl⟩ := node_shaped own made
      exact .node rfl shown
  case nested =>
    intro es ih keyed isGroup r made
    rw [entry] at made
    obtain ⟨rs, found, made⟩ := bind_ok made
    obtain rfl := Except.ok.inj made
    exact .nested (ih (fun n member => keyed n (by simpa only [Entry.nodes] using member)) _ rs found)
  case list =>
    intro es ih keyed r made
    rw [branch] at made
    obtain ⟨rs, found, made⟩ := bind_ok made
    obtain rfl := Except.ok.inj made
    exact .list (ih (fun n member => keyed n (by simpa only [Branch.nodes] using member)) _ rs found)
  case raw =>
    intro item _ r made
    rw [branch] at made
    obtain rfl := Except.ok.inj made
    exact .raw
  case nil =>
    intro _ isGroup rs made
    rw [entries] at made
    obtain rfl := Except.ok.inj made
    exact .nil
  case cons =>
    intro e es ih ih' keyed isGroup rs made
    rw [nodesOf] at keyed
    rw [entries] at made
    obtain ⟨r, found, made⟩ := bind_ok made
    obtain ⟨more, found', made⟩ := bind_ok made
    obtain rfl := Except.ok.inj made
    exact .cons (ih (fun n member => keyed n (List.mem_append_left _ member)) _ r found)
      (ih' (fun n member => keyed n (List.mem_append_right _ member)) _ more found')
  case noRoutes =>
    intro _ _ os made
    rw [routes] at made
    obtain rfl := Except.ok.inj made
    exact ⟨rfl, .nil⟩
  case route =>
    intro k b rest ih ih' texts keyed os made
    rw [nodesOfRoutes] at keyed
    obtain ⟨s, rfl⟩ := texts k List.mem_cons_self
    rw [routes] at made
    obtain ⟨r, found, made⟩ := bind_ok made
    obtain ⟨more, found', made⟩ := bind_ok made
    obtain rfl := Except.ok.inj made
    obtain ⟨same, shown⟩ := ih' (fun k member => texts k (List.mem_cons_of_mem _ member))
      (fun n member => keyed n (List.mem_append_right _ member)) more found'
    exact ⟨congrArg (Key.ofText s :: ·) same,
      .cons (ih (fun n member => keyed n (List.mem_append_left _ member)) r found) shown⟩

/-! ### Nodes -/

structure Fits (w : World) (n : Node) : Prop where
  name : ∃ s, n.name = .text s
  path : ∀ k, .output k ∈ n.path → ∃ s, k = .ofText s
  keys : Keyed n.outputNames
  outputPath : (w.nodeState n).outputPath = .null ∨ ∃ s, (w.nodeState n).outputPath = .text s

theorem pathItem_data {path : Path} (textual : ∀ k, .output k ∈ path → ∃ s, k = .ofText s) :
    ∀ d ∈ path.data, ∀ position, pathItem position d = .ok d := by
  induction path with
  | nil => intro d member; simp [Path.data] at member
  | cons hop rest ih =>
    have later := ih fun k member => textual k (List.mem_cons_of_mem _ member)
    cases hop with
    | entry i =>
      intro d member position
      rcases List.mem_cons.mp member with rfl | member
      · rfl
      · exact later d member position
    | output k =>
      obtain ⟨s, rfl⟩ := textual k List.mem_cons_self
      intro d member position
      rcases List.mem_cons.mp member with rfl | member
      · rfl
      · rcases List.mem_cons.mp member with rfl | member
        · rfl
        · exact later d member position

theorem optionalTextField_read {h : Heap} {v : Value} (textual : v = .null ∨ ∃ s, v = .text s) :
    ∃ o : Option String, optionalTextField "output_path" (h.read v) = .ok o ∧
      v = (o.map Value.text).getD .null := by
  rcases textual with rfl | ⟨s, rfl⟩
  · exact ⟨none, by simp [Heap.read, Value.null, Heap.readValue, optionalTextField], rfl⟩
  · refine ⟨some s, ?_, rfl⟩
    simp [Heap.read, Value.text, Heap.readValue, optionalTextField, textField, text, Except.map]

/-- A node that fits is reported with its outputs as they are, each under its text. -/
theorem node_ok {w : World} {n : Node} (outputs : Option (List (Key × Option (List EntryReport))))
    (fits : Fits w n) (same : (outputs.getD []).map (·.1) = n.outputNames) :
    ∃ name path outputPath args output,
      node (w.viewNode n) outputs = .ok (.action name path outputPath
        (outputs.map underTexts) (w.viewNode n) args output) ∧
      NodeReport.Describes ⟨name, path, n.isAsync, (w.nodeState n).executing, (w.nodeState n).executed, outputPath,
        (w.nodeState n).duration, args, output⟩ w n := by
  obtain ⟨name, named⟩ := fits.name
  obtain ⟨outputPath, selected, shown⟩ := optionalTextField_read (h := w.heap) fits.outputPath
  have keyed : Keyed ((outputs.getD []).map (·.1)) := same ▸ fits.keys
  have name_ok : textField "name" n.name = .ok name := by rw [named]; rfl
  have path_ok : ∀ x ∈ n.path.data.zipIdx, pathItem x.2 x.1 = .ok x.1 := fun x member =>
    pathItem_data fits.path x.1 (List.fst_mem_of_mem_zipIdx member) x.2
  refine ⟨name, n.path.data, outputPath, (Datum.dict (w.heap.readEntries (w.nodeState n).args)).toJsonable,
    (w.heap.read (w.nodeState n).output).toJsonable, ?_, named, rfl, rfl, rfl, rfl,
      shown, rfl, rfl, rfl⟩
  unfold node
  simp only [World.viewNode, name_ok, selected, misfits_nil path_ok, misfits_nil keyed.names_ok, values_map path_ok,
    misfits_ok, List.append_nil, List.isEmpty_nil, if_true, keyed.reported, List.zipIdx_map_fst]

/-- Entries whose nodes fit are reported with their nodes in their order. -/
theorem entry_ok (w : World) :
    (∀ (e : Entry) (isGroup : Bool), (∀ n ∈ e.nodes, Fits w n) → ∃ r, entry w isGroup e = .ok r ∧
      w.Listed e.nodes (nodesOfEntry r)) ∧
    (∀ (es : List Entry) (isGroup : Bool), (∀ n ∈ nodesOf es, Fits w n) → ∃ rs,
      entries w isGroup es = .ok rs ∧ w.Listed (nodesOf es) (nodesOfEntries rs)) ∧
    (∀ routes : List (Key × Branch), (∀ k ∈ routes.map (·.1), ∃ s, k = .ofText s) →
      (∀ n ∈ nodesOfRoutes routes, Fits w n) → ∃ os, Report.routes w routes = .ok os ∧
      os.map (·.1) = routes.map (·.1) ∧ w.Listed (nodesOfRoutes routes) (nodesOfOutputs (underTexts os))) ∧
    (∀ b : Branch, (∀ n ∈ b.nodes, Fits w n) → ∃ r, branch w b = .ok r ∧
      ∀ name, w.Listed b.nodes (nodesOfOutputs [(name, r)])) := by
  refine Entry.nodes.mutual_induct _ _ _ _ ?node ?nested ?list ?raw ?nil ?cons ?noRoutes ?route
  case node =>
    intro head outputs ih isGroup fits
    have own : Fits w ⟨head, outputs⟩ := fits _ (Tree.nodes_entry ⟨head, outputs⟩ ▸ List.mem_cons_self)
    cases outputs with
    | none =>
      obtain ⟨name, path, outputPath, args, output, made, told⟩ := node_ok none own rfl
      refine ⟨_, made, ?_⟩
      simpa only [Entry.nodes, nodesOfEntry] using .cons told .nil
    | some routes =>
      obtain ⟨os, found, keys, below⟩ := ih own.keys.texts fun n member =>
        fits n (by simpa only [Entry.nodes] using List.mem_cons_of_mem _ member)
      obtain ⟨name, path, outputPath, args, output, made, told⟩ := node_ok (some os) own keys
      have whole : entry w isGroup (.node head (some routes)) = .ok (.action name path outputPath
          (some (underTexts os)) (w.viewNode ⟨head, some routes⟩) args output) := by
        rw [entry, found]
        exact made
      refine ⟨_, whole, ?_⟩
      simpa only [Entry.nodes, nodesOfEntry] using .cons told below
  case nested =>
    intro es ih isGroup fits
    obtain ⟨rs, found, below⟩ := ih (!isGroup) fun n member =>
      fits n (by simpa only [Entry.nodes] using member)
    refine ⟨.group (!isGroup) rs, ?_, ?_⟩
    · rw [entry, found]
      rfl
    · simpa only [Entry.nodes, nodesOfEntry] using below
  case list =>
    intro es ih fits
    obtain ⟨rs, found, below⟩ := ih false fun n member => fits n (by simpa only [Branch.nodes] using member)
    refine ⟨some rs, ?_, fun name => ?_⟩
    · rw [branch, found]
      rfl
    · simpa only [Branch.nodes, nodesOfOutputs, List.append_nil] using below
  case raw =>
    intro item fits
    refine ⟨none, rfl, fun name => ?_⟩
    simpa only [Branch.nodes, nodesOfOutputs] using .nil
  case nil =>
    intro isGroup _
    refine ⟨[], rfl, ?_⟩
    simpa only [nodesOf, nodesOfEntries] using .nil
  case cons =>
    intro e es ih ih' isGroup fits
    rw [nodesOf] at fits
    obtain ⟨r, found, here⟩ := ih isGroup fun n member => fits n (List.mem_append_left _ member)
    obtain ⟨rs, found', later⟩ := ih' isGroup fun n member => fits n (List.mem_append_right _ member)
    refine ⟨r :: rs, ?_, ?_⟩
    · rw [entries, found, found']
      rfl
    · rw [nodesOf, nodesOfEntries]
      exact List.rel_append here later
  case noRoutes =>
    intro _ _
    refine ⟨[], rfl, rfl, ?_⟩
    simpa only [nodesOfRoutes, underTexts, List.map_nil, nodesOfOutputs] using .nil
  case route =>
    intro k b rest ih ih' keys fits
    rw [nodesOfRoutes] at fits
    obtain ⟨s, rfl⟩ := keys k List.mem_cons_self
    obtain ⟨r, found, here⟩ := ih fun n member => fits n (List.mem_append_left _ member)
    obtain ⟨os, found', same, later⟩ := ih' (fun k member => keys k (List.mem_cons_of_mem _ member))
      fun n member => fits n (List.mem_append_right _ member)
    refine ⟨(.ofText s, r) :: os, ?_, ?_, ?_⟩
    · rw [routes, found, found']
      rfl
    · rw [List.map_cons, List.map_cons, same]
    · have split : nodesOfOutputs (underTexts ((.ofText s, r) :: os)) =
          nodesOfOutputs [(s, r)] ++ nodesOfOutputs (underTexts os) := by
        cases r <;> simp [nodesOfOutputs, underTexts, Key.asText, Key.ofText]
      rw [nodesOfRoutes, split]
      exact List.rel_append (here s) later

/-- What is reported of a tree whose keys are texts has the shape of the tree. -/
theorem branches_shaped {w : World} {t : Tree} {r : Record} {report : RunReport} (declares : t.Declares)
    (textual : t.Textual) (made : ofRecord w t r = .ok report) : EntriesShown false t.branches report.branches := by
  have keyed (n : Node) (known : n ∈ nodesOf t.branches) : Keyed n.outputNames :=
    ⟨textual.keys n known, declares n known⟩
  obtain ⟨rs, found, made⟩ := bind_ok made
  obtain rfl := Except.ok.inj made
  exact (entry_shaped w).2.1 t.branches keyed false rs found

end Report

namespace Tree

variable {t : Tree} {place : Path} {entries : List Entry} {n : Node}

def TextualPath (path : Path) : Prop := ∀ k, Hop.output k ∈ path → ∃ s, k = .ofText s

theorem textual_entry (textual : TextualPath place) (i : Nat) : TextualPath (place ++ [.entry i]) := by
  intro k member
  rcases List.mem_append.mp member with there | here
  · exact textual k there
  · simp at here

theorem Textual.output (textual : t.Textual) (placed : t.Places n) {key : Key} {b : Branch}
    (route : n.route? key = some (key, b)) (own : TextualPath n.path) : TextualPath (n.path ++ [.output key]) := by
  intro k member
  rcases List.mem_append.mp member with there | here
  · exact own k there
  · obtain rfl : k = key := by simpa using here
    have known := placed.sublist.subset List.mem_cons_self
    exact textual.keys n known k (List.mem_map_of_mem (f := Prod.fst) (mem_routes route))

theorem Textual.branch (textual : t.Textual) (compiled : t.Compiled) (branch : t.BranchAt place entries) :
    TextualPath place := by
  induction branch with
  | root => exact fun _ none => nomatch none
  | @nested place _ _ _ i k _ _ _ ih =>
    have inner := textual_entry (textual_entry ih i) k
    rwa [List.append_assoc] at inner
  | single outer entry route ih =>
    refine textual.output ⟨_, _, _, outer, .inl entry⟩ route ?_
    rw [compiled.single _ _ _ _ outer entry]
    exact textual_entry ih _
  | @grouped place _ _ _ i k _ _ outer group member route ih =>
    refine textual.output ⟨_, _, _, outer, .inr ⟨_, _, group, member⟩⟩ route ?_
    have inner := textual_entry (textual_entry ih i) k
    rw [List.append_assoc] at inner
    rw [compiled.grouped _ _ _ _ _ _ outer group member]
    exact inner

theorem Textual.path (textual : t.Textual) (compiled : t.Compiled) (placed : t.Places n) : TextualPath n.path := by
  obtain ⟨place, entries, i, branch, single | ⟨members, k, group, member⟩⟩ := placed
  · rw [compiled.single _ _ _ _ branch single]
    exact textual_entry (textual.branch compiled branch) i
  · have inner := textual_entry (textual_entry (textual.branch compiled branch) i) k
    rw [List.append_assoc] at inner
    rw [compiled.grouped _ _ _ _ _ _ branch group member]
    exact inner

end Tree

namespace Report

theorem ofRecord_ok {graph : Item} {t : Tree} (compiled : Graph.compile graph = .ok t) (declares : t.Declares)
    (textual : t.Textual) (w : World) (r : Record)
    (selected : ∀ n ∈ t.nodes, (w.nodeState n).outputPath = .null ∨ ∃ s, (w.nodeState n).outputPath = .text s) :
    ∃ branches, w.Listed t.nodes (nodesOfEntries branches) ∧ ofRecord w t r = .ok
      { status := r.status, isExecuting := !r.status.isSettled, duration := r.status.duration
        args := (Datum.dict (w.heap.readEntries (w.heap.dict r.args))).toJsonable
        error := (r.status.error?.map (·.fault)).map Fault.message
        errorType := (r.status.error?.map (·.fault)).map Fault.className, branches } := by
  have fits (n : Node) (known : n ∈ nodesOf t.branches) : Fits w n :=
    have placed := (Tree.mem_nodes_iff declares).mp known
    { name := textual.names n known
      path := textual.path (Tree.compiled_of_compile compiled) placed
      keys := ⟨textual.keys n known, declares n known⟩
      outputPath := selected n known }
  obtain ⟨branches, found, listed⟩ := (entry_ok w).2.1 t.branches false fits
  refine ⟨branches, listed, ?_⟩
  rw [ofRecord, found]
  rfl

end Report

end Conductor
