import Conductor.Proofs.Reporting
import Conductor.Proofs.Sequences

/-!
# Sequences and groups in turn

Lists alternate: a list in a sequence is a group, a list in a group is a sequence, and every output leads to a
sequence. Compiling says so on the nodes, a run acts so on the lists that it comes to, and a report tells so of
its entries; the three agree on every node and on every nested list.
-/

namespace Conductor

/-- Whether the nodes of an entry say of what kind the list is in which they stand; the entry itself stands in
a group or not. -/
inductive Entry.Alternates : Bool → Entry → Prop where
  | node {isGroup : Bool} {n : Node} (own : n.isAsync = isGroup)
      (behind : ∀ k inner, (k, .list inner) ∈ n.routes → ∀ e ∈ inner, Entry.Alternates false e) :
      Entry.Alternates isGroup n.entry
  | nested {isGroup : Bool} {entries : List Entry} (members : ∀ e ∈ entries, Entry.Alternates (!isGroup) e) :
      Entry.Alternates isGroup (.nested entries)

/-! ### What compiling says -/

namespace Graph

theorem compile_alternates :
    (∀ path isAsync position items d, ∀ e ∈ (compileList path isAsync position items d).1,
      e.Alternates isAsync) ∧
    (∀ path outputs d, ∀ k inner, (k, .list inner) ∈ (compileOutputs path outputs d).1 →
      ∀ e ∈ inner, e.Alternates false) ∧
    (∀ path item d, ∀ inner, (compileOutput path item d).1 = .list inner →
      ∀ e ∈ inner, e.Alternates false) := by
  have cons {isAsync : Bool} {first : Entry} {rest : List Entry} (here : first.Alternates isAsync)
      (later : ∀ e ∈ rest, e.Alternates isAsync) : ∀ e ∈ first :: rest, e.Alternates isAsync := by
    intro e member
    rcases List.mem_cons.mp member with rfl | member
    · exact here
    · exact later e member
  refine compileList.mutual_induct _ _ _ ?listBehind ?tupleBehind ?raw ?nil ?list ?tuple ?owner ?leaf
    ?noOutputs ?output
  case listBehind | tupleBehind =>
    intro path items d entries d₁ same ih inner leads
    simp only [same] at ih
    simp only [compileOutput, same] at leads
    exact Branch.list.inj leads ▸ ih
  case raw =>
    intro path item d other other' inner leads
    rw [compileOutput.eq_3 _ _ _ other other'] at leads
    cases leads
  case nil =>
    intro path isAsync position d e member
    simp [compileList] at member
  case list | tuple =>
    intro path isAsync position items rest d inner d₁ same entries d₂ same' ih ih'
    simp only [same] at ih
    simp only [same'] at ih'
    simpa only [compileList, same, same'] using cons (.nested ih) ih'
  case owner =>
    intro path isAsync position item id isProxy outputs rest d other other' head d₁ made routes d₂ same
      entries d₃ same' ih ih'
    simp only [same] at ih
    simp only [same'] at ih'
    obtain ⟨rfl, -⟩ := Prod.mk.inj made
    rw [compileList.eq_4 _ _ _ _ _ _ _ _ _ other other']
    simp only [made, same, same']
    exact cons (.node (n := ⟨_, some routes⟩) rfl ih) ih'
  case leaf =>
    intro path isAsync position item rest d other other' other'' head d₁ made entries d₂ same ih
    simp only [same] at ih
    obtain ⟨rfl, -⟩ := Prod.mk.inj made
    rw [compileList.eq_5 _ _ _ _ _ _ other other' other'']
    simp only [made, same]
    exact cons (.node (n := ⟨_, none⟩) rfl fun _ _ listed => absurd listed List.not_mem_nil) ih
  case noOutputs =>
    intro path d k inner member
    simp [compileOutputs] at member
  case output =>
    intro path k item rest d branch d₁ same routes d₂ same' ih ih' key inner member
    simp only [same] at ih
    simp only [same'] at ih'
    simp only [compileOutputs, same, same'] at member
    rcases List.mem_cons.mp member with here | later
    · exact ih inner (Prod.mk.inj here).2.symm
    · exact ih' key inner later

end Graph

namespace Tree

variable {t : Tree} {place p : Path} {entries inner : List Entry} {e : Entry} {n : Node} {i : Nat} {isGroup : Bool}

theorem alternates_of_compile {graph : Item} (compiled : Graph.compile graph = .ok t) :
    ∀ e ∈ t.branches, e.Alternates false := by
  obtain ⟨items, rfl⟩ := items_of_compile compiled
  exact Graph.compile_alternates.1 [] false 0 items {}

theorem alternates_route (alternates : n.entry.Alternates isGroup) {key : Key}
    (route : n.route? key = some (key, .list inner)) : ∀ e ∈ inner, e.Alternates false := by
  generalize same : n.entry = e at alternates
  cases alternates with
  | node own behind =>
    obtain rfl := entry_injective same
    exact behind _ _ (mem_routes route)
  | nested _ => cases same

theorem alternates_nested (alternates : (Entry.nested inner).Alternates isGroup) :
    ∀ e ∈ inner, e.Alternates (!isGroup) := by
  generalize same : Entry.nested inner = e at alternates
  cases alternates with
  | node own behind => cases same
  | nested members =>
    obtain rfl := Entry.nested.inj same
    exact members

theorem BranchAt.alternates (branch : t.BranchAt place entries) (root : ∀ e ∈ t.branches, e.Alternates false) :
    ∀ e ∈ entries, e.Alternates false := by
  induction branch with
  | root => exact root
  | nested _ group member ih =>
    exact alternates_nested (alternates_nested (ih _ (List.mem_of_getElem? group)) _ (List.mem_of_getElem? member))
  | single _ entry route ih => exact alternates_route (ih _ (List.mem_of_getElem? entry)) route
  | grouped _ group member route ih =>
    have members := alternates_nested (ih _ (List.mem_of_getElem? group))
    exact alternates_route (members _ (List.mem_of_getElem? member)) route

theorem isAsync_of_alternates (alternates : n.entry.Alternates isGroup) : n.isAsync = isGroup := by
  generalize same : n.entry = e at alternates
  cases alternates with
  | node own behind =>
    obtain rfl := entry_injective same
    exact own
  | nested _ => cases same

theorem EntryAt.isAsync (found : t.EntryAt p n.entry) (root : ∀ e ∈ t.branches, e.Alternates false) :
    n.isAsync = p.isSequence := by
  generalize same : n.entry = e at found
  cases found with
  | listed branch here =>
    subst same
    rw [isSequence_append, branch.isSequence]
    exact isAsync_of_alternates (branch.alternates root _ (List.mem_of_getElem? here))
  | member branch group here =>
    subst same
    rw [isSequence_append, isSequence_append, branch.isSequence]
    have members := alternates_nested (branch.alternates root _ (List.mem_of_getElem? group))
    exact isAsync_of_alternates (members _ (List.mem_of_getElem? here))

end Tree

/-! ### What a report says -/

inductive ReportSpot where
  | list (entries : List EntryReport)
  | entry (e : EntryReport)

namespace ReportSpot

def entries? : ReportSpot → Option (List EntryReport)
  | .list entries => some entries
  | .entry (.group _ entries) => some entries
  | .entry (.action ..) => none

def isConcurrent : ReportSpot → Bool
  | .entry (.group isConcurrent _) => isConcurrent
  | _ => false

/-- One hop in a report: a position leads to an entry, and the key of an output to the list under its text. -/
def hop : ReportSpot → Hop → Option ReportSpot
  | spot, .entry i => (spot.entries?.bind fun entries => entries[i]?).map .entry
  | .entry (.action _ _ _ (some outputs) _ _ _), .output k =>
    match outputs.lookup k.asText with
    | some (some entries) => some (.list entries)
    | _ => none
  | _, .output _ => none

end ReportSpot

def RunReport.follow (r : RunReport) (p : Path) : Option ReportSpot :=
  p.foldlM ReportSpot.hop (.list r.branches)

namespace Report

variable {report : RunReport} {t : Tree} {place p : Path} {entries inner : List Entry} {reports : List EntryReport}
  {routes : List (Key × Branch)} {outputs : List (String × Option (List EntryReport))} {e : Entry} {n : Node}
  {r : EntryReport} {i : Nat} {isGroup : Bool} {spot : ReportSpot}

theorem follow_append (h : Hop) : report.follow (p ++ [h]) = (report.follow p).bind (·.hop h) := by
  simp [RunReport.follow, List.foldlM_append]

theorem shown_getElem (shown : EntriesShown isGroup entries reports) (found : entries[i]? = some e) :
    ∃ r, reports[i]? = some r ∧ e.Shown isGroup r := by
  induction entries generalizing i reports with
  | nil => simp at found
  | cons first rest ih =>
    cases shown with
    | cons here later =>
      cases i with
      | zero =>
        obtain rfl := Option.some.inj found
        exact ⟨_, rfl, here⟩
      | succ i => simpa using ih later found

/-- The list that an output leads to is reported under the text of its key. -/
theorem shown_find {s : String} (shown : RoutesShown routes outputs)
    (found : routes.find? (fun o => o.1.same (.ofText s)) = some (.ofText s, .list inner)) :
    ∃ reports, outputs.lookup s = some (some reports) ∧ EntriesShown false inner reports := by
  induction routes generalizing outputs with
  | nil => simp at found
  | cons first rest ih =>
    cases shown with
    | @cons name b r _ outputs here later =>
      by_cases same : name = s
      · subst same
        have itself : (Key.ofText name).same (.ofText name) = true := Key.same_iff.mpr rfl
        rw [List.find?_cons, itself] at found
        obtain ⟨-, rfl⟩ := Prod.mk.inj (Option.some.inj found)
        cases here with
        | list behind => exact ⟨_, List.lookup_cons_self, behind⟩
      · have other : (Key.ofText name).same (.ofText s) = false := by
          simpa [Key.ofText, Key.same, Atom.canon] using same
        rw [List.find?_cons, other] at found
        obtain ⟨reports, there, behind⟩ := ih later found
        have differs : (s == name) = false := by simpa using Ne.symm same
        exact ⟨reports, by rw [List.lookup_cons, differs]; exact there, behind⟩

theorem follow_into (there : report.follow place = some spot) (reported : spot.entries? = some reports)
    (found : reports[i]? = some r) : report.follow (place ++ [.entry i]) = some (.entry r) := by
  rw [follow_append, there, Option.bind_some, ReportSpot.hop, reported, Option.bind_some, found, Option.map_some]

theorem follow_output {s : String} (there : report.follow n.path = some (.entry r))
    (shown : n.entry.Shown isGroup r) (route : n.route? (.ofText s) = some (.ofText s, .list inner)) :
    ∃ reports, report.follow (n.path ++ [.output (.ofText s)]) = some (.list reports) ∧
      EntriesShown false inner reports := by
  obtain ⟨head, routes⟩ := n
  generalize same : Node.entry ⟨head, routes⟩ = e at shown
  cases shown with
  | leaf own =>
    obtain ⟨rfl, rfl⟩ := Entry.node.inj same
    cases route
  | node own behind =>
    obtain ⟨rfl, rfl⟩ := Entry.node.inj same
    obtain ⟨reports, listed, shown⟩ := shown_find behind route
    refine ⟨reports, ?_, shown⟩
    rw [follow_append, there, Option.bind_some]
    simp [ReportSpot.hop, Key.asText, Key.ofText, listed]
  | nested _ => cases same

/-- Whether a spot in a report is a sequence or a group with the shape of some entries. -/
structure Holds (spot : ReportSpot) (isGroup : Bool) (entries : List Entry) (reports : List EntryReport) : Prop where
  reported : spot.entries? = some reports
  kind : spot.isConcurrent = isGroup
  shown : EntriesShown isGroup entries reports

theorem holds_nested (holds : Holds spot isGroup entries reports) (there : report.follow p = some spot)
    (found : entries[i]? = some (.nested inner)) :
    ∃ more, report.follow (p ++ [.entry i]) = some (.entry (.group (!isGroup) more)) ∧
      Holds (.entry (.group (!isGroup) more)) (!isGroup) inner more := by
  obtain ⟨r, reported, shown⟩ := shown_getElem holds.shown found
  cases shown with
  | nested members => exact ⟨_, follow_into there holds.reported reported, rfl, rfl, members⟩

theorem holds_node (holds : Holds spot isGroup entries reports) (there : report.follow p = some spot)
    (found : entries[i]? = some n.entry) :
    ∃ r, report.follow (p ++ [.entry i]) = some (.entry r) ∧ n.entry.Shown isGroup r := by
  obtain ⟨r, reported, shown⟩ := shown_getElem holds.shown found
  exact ⟨r, follow_into there holds.reported reported, shown⟩

theorem follow_branch (compiled : t.Compiled) (textual : t.Textual)
    (shown : EntriesShown false t.branches report.branches) (branch : t.BranchAt place entries) :
    ∃ spot reports, report.follow place = some spot ∧ Holds spot false entries reports := by
  have behind {r : EntryReport} {isGroup : Bool} {inner : List Entry} {n : Node} {key : Key}
      (placed : t.Places n) (there : report.follow n.path = some (.entry r)) (shown : n.entry.Shown isGroup r)
      (route : n.route? key = some (key, .list inner)) :
      ∃ spot reports, report.follow (n.path ++ [.output key]) = some spot ∧ Holds spot false inner reports := by
    have known := placed.sublist.subset List.mem_cons_self
    obtain ⟨s, rfl⟩ := textual.keys n known key (List.mem_map_of_mem (f := Prod.fst) (Tree.mem_routes route))
    obtain ⟨reports, there, shown⟩ := follow_output there shown route
    exact ⟨_, reports, there, rfl, rfl, shown⟩
  induction branch with
  | root => exact ⟨_, _, rfl, rfl, rfl, shown⟩
  | @nested place _ _ _ i k _ group member ih =>
    obtain ⟨spot, reports, there, holds⟩ := ih
    obtain ⟨more, there', holds'⟩ := holds_nested holds there group
    obtain ⟨inner, there'', holds''⟩ := holds_nested holds' there' member
    rw [List.append_assoc] at there''
    exact ⟨_, inner, there'', holds''⟩
  | single outer entry route ih =>
    obtain ⟨spot, reports, there, holds⟩ := ih
    obtain ⟨r, there', shown'⟩ := holds_node holds there entry
    rw [← compiled.single _ _ _ _ outer entry] at there'
    exact behind ⟨_, _, _, outer, .inl entry⟩ there' shown' route
  | grouped outer group member route ih =>
    obtain ⟨spot, reports, there, holds⟩ := ih
    obtain ⟨more, there', holds'⟩ := holds_nested holds there group
    obtain ⟨r, there'', shown''⟩ := holds_node holds' there' member
    rw [List.append_assoc] at there''
    have path := compiled.grouped _ _ _ _ _ _ outer group member
    exact behind ⟨_, _, _, outer, .inr ⟨_, _, group, member⟩⟩ (path ▸ there'') shown'' route

theorem shown_node (shown : n.entry.Shown isGroup r) : ∃ name path outputPath outputs state args output,
    r = .action name path outputPath outputs state args output ∧ state.node = n := by
  generalize same : n.entry = e at shown
  cases shown with
  | leaf own => exact ⟨_, _, _, _, _, _, _, rfl, own.trans (Tree.entry_injective same).symm⟩
  | node own _ => exact ⟨_, _, _, _, _, _, _, rfl, own.trans (Tree.entry_injective same).symm⟩
  | nested _ => cases same

/-- An entry of a tree is reported at its path, within an entry that is concurrent just if the path leads to a
member of a group. -/
theorem follow_entry (compiled : t.Compiled) (textual : t.Textual)
    (shown : EntriesShown false t.branches report.branches) (found : t.EntryAt p e) :
    ∃ spot r, report.follow p.dropLast = some spot ∧ spot.isConcurrent = p.isSequence ∧
      report.follow p = some (.entry r) ∧ e.Shown p.isSequence r := by
  cases found with
  | @listed place _ i _ branch found =>
    obtain ⟨spot, reports, there, holds⟩ := follow_branch compiled textual shown branch
    obtain ⟨r, reported, shown'⟩ := shown_getElem holds.shown found
    rw [List.dropLast_concat, Tree.isSequence_append, branch.isSequence]
    exact ⟨spot, r, there, holds.kind, follow_into there holds.reported reported, shown'⟩
  | @member place _ _ i k _ branch group found =>
    obtain ⟨spot, reports, there, holds⟩ := follow_branch compiled textual shown branch
    obtain ⟨more, there', holds'⟩ := holds_nested holds there group
    obtain ⟨r, reported, shown'⟩ := shown_getElem holds'.shown found
    rw [List.dropLast_concat, Tree.isSequence_append, Tree.isSequence_append, branch.isSequence]
    exact ⟨_, r, there', rfl, follow_into there' holds'.reported reported, shown'⟩

end Report

/-! ### What a run does -/

namespace World

variable {plan : Plan} {w w' : World} {run : RunId} {n : Node} {h : Head} {policy : Policy} {args : Entries}
  {p : Path} {entries rest : List Entry} {k : Nat} {chains : List FutureId} {t : FutureId} {stack : List Frame}
  {aim : FutureId → Aim} {later : List Note}

/-- The two ways in which a run invokes a node that it has come to: one by one with a sequential descriptor, and
by dispatching the node with a concurrent one. -/
inductive Invokes (w : World) (run : RunId) (n : Node) : Policy → Prop where
  | sequentially {t : FutureId} {stack : List Frame} (here : w.focus = .enter t (.sequential run n) stack) :
      Invokes w run n .sequential
  | dispatching {t : FutureId} {place : Path} {position : Nat} {rest : List Entry} {chains : List FutureId}
      {stack : List Frame} (here : w.focus = .enter t (.dispatch run place position (n.entry :: rest) chains) stack) :
      Invokes w run n .concurrent

/-- Whether a run is about to deal with a list at a path from some entry on, as a group or as a sequence. -/
inductive Takes (w : World) (run : RunId) (p : Path) (rest : List Entry) : Bool → Prop where
  | group {t : FutureId} {position : Nat} {chains : List FutureId} {stack : List Frame}
      (here : w.focus = .enter t (.dispatch run p position rest chains) stack) : Takes w run p rest true
  | sequence {t : FutureId} {position : Nat} {stack : List Frame}
      (here : w.focus = .enter t (.branches run p position rest) stack) : Takes w run p rest false

theorem Calls.invokes (calls : Calls run n w.focus) : ∃ policy, w.Invokes run n policy := by
  generalize same : w.focus = focus at calls
  cases calls with
  | sequential => exact ⟨_, .sequentially same⟩
  | dispatch => exact ⟨_, .dispatching same⟩

theorem Invokes.userCode (invokes : w.Invokes run n policy) :
    World.userCode plan w = calling plan run n policy w := by
  cases invokes with
  | sequentially here => simp only [World.userCode, here]
  | dispatching here =>
    obtain ⟨head, outputs⟩ := n
    simp only [World.userCode, here, Node.entry]

/-- A group is what the entry at a path is, and a list that is taken one by one is a branch list there. -/
theorem Takes.place {takesGroup : Bool} (ordered : Ordered plan aim w) (takes : w.Takes run p rest takesGroup) :
    ∃ before, if takesGroup then plan.tree.EntryAt p (.nested (before ++ rest)) ∧ p.isSequence = false
      else plan.tree.BranchAt p (before ++ rest) := by
  cases takes with
  | group here =>
    obtain ⟨a, opens, -⟩ := ordered.entered here
    cases opens with
    | played own => cases own
    | @dispatch _ place before _ done _ _ reached _ =>
      have branch := reached.list.branchAt
      refine ⟨done, Tree.EntryAt.listed branch (by simp), ?_⟩
      rw [Tree.isSequence_append, branch.isSequence]
      rfl
  | sequence here =>
    obtain ⟨a, opens, -⟩ := ordered.entered here
    cases opens with
    | played own => cases own
    | @branches _ _ before _ _ reached _ => exact ⟨before, reached.list.branchAt⟩

theorem Invokes.stands (ordered : Ordered plan aim w) (invokes : w.Invokes run n policy)
    (root : ∀ e ∈ plan.tree.branches, e.Alternates false) :
    n ∈ plan.tree.nodes ∧ policy = if n.isAsync then .concurrent else .sequential := by
  cases invokes with
  | sequentially here =>
    obtain ⟨a, opens, -⟩ := ordered.entered here
    cases opens with
    | played own => cases own
    | sequential reached =>
      have alternates := reached.list.branchAt.alternates root n.entry (by simp)
      rw [Tree.isAsync_of_alternates alternates]
      exact ⟨(reached.stood (Entry.mem_own_self n)).mem, rfl⟩
  | dispatching here =>
    obtain ⟨a, opens, -⟩ := ordered.entered here
    cases opens with
    | played own => cases own
    | dispatch reached _ =>
      have group := reached.list.branchAt.alternates root _ (List.mem_append_right _ List.mem_cons_self)
      have members := Tree.alternates_nested group
      rw [Tree.isAsync_of_alternates (members n.entry (by simp))]
      exact ⟨(reached.stood (Entry.mem_own_nested.mpr (by simp))).mem, rfl⟩

/-- A node is marked as asynchronous just if every run that comes to it dispatches it with a concurrent descriptor,
and just if its entry in a report stands directly in a concurrent one. A nested list is dispatched as a group just
if a report calls it concurrent, and else taken as a sequence, as the report calls it then. -/
theorem concurrency_agrees {graph : Item} (compiled : Graph.compile graph = .ok plan.tree)
    (declares : plan.tree.Declares) :
    -- every call is one of the two ways to invoke a node, and which of them is what the mark says
    (∀ w w' later run h args, Reachable plan w → Move plan w w' → w'.notes = later ++ w.notes →
      (run, .called h args) ∈ later →
        ∃ n ∈ plan.tree.nodes, n.head = h ∧ ∃ policy, w.Invokes run n policy) ∧
    (∀ w run n policy, Reachable plan w → w.Invokes run n policy →
      userCode plan w = calling plan run n policy w ∧
      (n.isAsync = true ↔ policy = .concurrent) ∧ (n.isAsync = false ↔ policy = .sequential)) ∧
    (plan.tree.Textual → ∀ v r report, Report.ofRecord v plan.tree r = .ok report →
      (∀ n ∈ plan.tree.nodes, ∃ spot name path outputPath outputs state args output,
        report.follow n.path = some (.entry (.action name path outputPath outputs state args output)) ∧
        state.node = n ∧ report.follow n.path.dropLast = some spot ∧
        (n.isAsync = true ↔ spot.isConcurrent = true)) ∧
      ∀ p entries, plan.tree.EntryAt p (.nested entries) → ∃ isConcurrent reports,
        report.follow p = some (.entry (.group isConcurrent reports)) ∧
        ∀ w run rest takesGroup, Reachable plan w → w.Takes run p rest takesGroup →
          rest <:+ entries ∧ (takesGroup = true ↔ isConcurrent = true)) := by
  have compiled' := Tree.compiled_of_compile compiled
  have root := Tree.alternates_of_compile compiled
  refine ⟨fun w w' later run h args reached m noted new => ?_, fun w run n policy reached invokes => ?_,
    fun textual v r report made => ?_⟩
  · obtain ⟨notes, noting⟩ := m.noting reached.sound
    obtain rfl : notes = later := List.append_cancel_right (noting.noted.symm.trans noted)
    obtain ⟨aim, ordered⟩ := reached.ordered compiled'
    cases noting.happens new with
    | called n _ _ calls => exact ⟨n, (calls.stood ordered).mem, rfl, calls.invokes⟩
  · obtain ⟨aim, ordered⟩ := reached.ordered compiled'
    obtain ⟨-, same⟩ := invokes.stands ordered root
    refine ⟨invokes.userCode, ?_, ?_⟩
    · cases mark : n.isAsync <;> simp [same, mark]
    · cases mark : n.isAsync <;> simp [same, mark]
  · have shown := Report.branches_shaped declares textual made
    refine ⟨fun n known => ?_, fun p entries found => ?_⟩
    · have here := ((Tree.mem_nodes_iff declares).mp known).entryAt compiled'
      obtain ⟨spot, r, around, kind, there, shown'⟩ := Report.follow_entry compiled' textual shown here
      have mark : n.isAsync = true ↔ spot.isConcurrent = true := by rw [here.isAsync root, kind]
      obtain ⟨name, path, outputPath, outputs, state, args, output, rfl, own⟩ := Report.shown_node shown'
      exact ⟨spot, name, path, outputPath, outputs, state, args, output, there, own, around, mark⟩
    · obtain ⟨spot, r, around, kind, there, shown'⟩ := Report.follow_entry compiled' textual shown found
      cases shown' with
      | nested _ =>
        refine ⟨_, _, there, fun w run rest takesGroup reached takes => ?_⟩
        obtain ⟨aim, ordered⟩ := reached.ordered compiled'
        obtain ⟨before, place⟩ := takes.place ordered
        cases takesGroup with
        | true =>
          obtain ⟨group, odd⟩ := place
          have same := Entry.nested.inj (compiled'.entry_unique group found)
          exact ⟨⟨before, same⟩, by simp [odd]⟩
        | false =>
          have branch : plan.tree.BranchAt p (before ++ rest) := place
          have even := branch.isSequence
          have same := compiled'.unique branch (found.branchAt even)
          exact ⟨⟨before, same⟩, by simp [even]⟩

/-- A group with a sequence in it, and a node after the group. -/
def layeredItems : List Item :=
  let a : Item := .leaf (.object 0 0) (.function {
    label := "a", signature := [⟨"args", .standard, false⟩, ⟨"store", .standard, false⟩], steps := [] } {})
  [.list [a, .list [a]], a]

def layered : Plan where
  tree := Graph.compileItems layeredItems

def isUnselected (w : World) (tree : Tree) : Bool :=
  tree.nodes.all fun n => match (w.nodeState n).outputPath with
    | .atom .null => true
    | _ => false

/-- The node of the group is dispatched by a run, is marked, and stands in a concurrent entry of the report. -/
theorem group_member_is_concurrent : ∃ (w : World) (n : Node) (r : Record) (report : RunReport)
    (spot : ReportSpot), Graph.compile (.list layeredItems) = .ok layered.tree ∧ layered.tree.Declares ∧
    layered.tree.Textual ∧ Reachable layered w ∧ w.Invokes 0 n .concurrent ∧ n.isAsync = true ∧
    Report.ofRecord w layered.tree r = .ok report ∧ report.follow n.path.dropLast = some spot ∧
    spot.isConcurrent = true := by
  let w := firstRun layered 8
  let n : Node := ⟨⟨0, 0, .text "a", [.entry 0, .entry 0], true⟩, none⟩
  let r : Record := { args := ⟨0⟩, started := 0, outcome := 0 }
  have compiled : Graph.compile (.list layeredItems) = .ok layered.tree := rfl
  have declares : layered.tree.Declares := by
    unfold Tree.Declares
    decide +kernel
  have names : layered.tree.nodes.map Node.name = List.replicate 3 (.text "a") := rfl
  have keys : layered.tree.nodes.flatMap Node.outputNames = [] := rfl
  have textual : layered.tree.Textual := by
    refine ⟨fun n known => ?_, fun n known k declared => ?_⟩
    · exact ⟨"a", List.eq_of_mem_replicate (names ▸ List.mem_map_of_mem known)⟩
    · have among := List.mem_flatMap.mpr ⟨n, known, declared⟩
      rw [keys] at among
      cases among
  have reached : Reachable layered w := reachable_firstRun layered 8
  have invokes : w.Invokes 0 n .concurrent := .dispatching rfl
  have fresh : w.isUnselected layered.tree = true := by decide +kernel
  have selected (n : Node) (known : n ∈ layered.tree.nodes) :
      (w.nodeState n).outputPath = .null ∨ ∃ s, (w.nodeState n).outputPath = .text s := by
    have here := List.all_eq_true.mp fresh n known
    split at here
    · exact .inl ‹_›
    · cases here
  obtain ⟨branches, -, made⟩ := Report.ofRecord_ok compiled declares textual w r selected
  obtain ⟨-, ways, reports⟩ := concurrency_agrees compiled declares
  have mark := (ways w 0 n .concurrent reached invokes).2.1.mpr rfl
  have known : n ∈ layered.tree.nodes := List.mem_cons_self
  obtain ⟨spot, _, _, _, _, _, _, _, -, -, around, kind⟩ := (reports textual w r _ made).1 n known
  exact ⟨w, n, r, _, spot, compiled, declares, textual, reached, invokes, mark, made, around, kind.mp mark⟩

end World

end Conductor
