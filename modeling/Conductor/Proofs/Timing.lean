import Conductor.Proofs.Arrangement
import Conductor.Proofs.Chronicle
import Conductor.Proofs.Lifecycle
import Conductor.Proofs.Lifetime
import Conductor.Proofs.Recursion
import Mathlib.Algebra.BigOperators.Ring.Finset

/-!
# Where the time of a run goes

A node is under way from the note that it is called to the note that it has completed. That is what its duration
counts, and the duration of a run counts the time from its start to the note of its settlement. A node is called after
the start of its run and completes before the settlement. Without groups it completes even before the run
comes to what its output leads to, and to all that follows, so that no two nodes are under way at once.
-/

namespace Conductor

def Stage.marks (stage : Stage) (run : RunId) (slot : Nat) (x : Note) : Bool :=
  x.1 == run && (stage.reached? x.2).any fun h => h.slot == slot

def settles (run : RunId) : Note → Bool
  | (other, .settled _) => other == run
  | _ => false

theorem settles_iff {run : RunId} {x : Note} : settles run x ↔ ∃ s, x = (run, .settled s) := by
  obtain ⟨other, x⟩ := x
  cases x <;> simp [settles]

theorem Stage.marks_iff {stage : Stage} {run : RunId} {slot : Nat} {x : Note} :
    stage.marks run slot x ↔ x.1 = run ∧ ∃ h, stage.reached? x.2 = some h ∧ h.slot = slot := by
  simp [Stage.marks, Option.any_eq_true]

namespace Tree

variable {t : Tree} {place : Path} {entries : List Entry} {e : Entry} {n m : Node}

theorem isFlat_of_mem (flat : areFlat entries) (member : e ∈ entries) : e.isFlat := by
  induction entries with
  | nil => cases member
  | cons x rest ih =>
    rw [areFlat, Bool.and_eq_true] at flat
    rcases List.mem_cons.mp member with rfl | later
    · exact flat.1
    · exact ih flat.2 later

theorem isFlat_of_route {routes : List (Key × Branch)} {k : Key} {b : Branch} (flat : areFlatRoutes routes)
    (member : (k, b) ∈ routes) : b.isFlat := by
  induction routes with
  | nil => cases member
  | cons x rest ih =>
    rw [areFlatRoutes, Bool.and_eq_true] at flat
    rcases List.mem_cons.mp member with rfl | later
    · exact flat.1
    · exact ih flat.2 later

theorem BranchAt.areFlat (branch : t.BranchAt place entries) (flat : areFlat t.branches) : areFlat entries := by
  have ungrouped {entries members : List Entry} {i : Nat} (flat : Conductor.areFlat entries)
      (group : entries[i]? = some (.nested members)) : False :=
    nomatch isFlat_of_mem flat (List.mem_of_getElem? group)
  induction branch with
  | root => exact flat
  | nested _ group _ ih => exact (ungrouped ih group).elim
  | @single _ _ _ _ node _ _ entry route ih =>
    have here : node.entry.isFlat := isFlat_of_mem ih (List.mem_of_getElem? entry)
    obtain ⟨head, outputs⟩ := node
    cases outputs with
    | none => cases route
    | some routes =>
      rw [Node.entry, Entry.isFlat] at here
      have there := isFlat_of_route here (mem_routes route)
      rwa [Branch.isFlat] at there
  | grouped _ group _ _ ih => exact (ungrouped ih group).elim

theorem not_beside (flat : areFlat t.branches) : ¬ t.Beside n m := by
  rintro ⟨_, _, _, _, _, _, _, _, branch, group, -⟩
  cases isFlat_of_mem (branch.areFlat flat) (List.mem_of_getElem? group)

end Tree

namespace World

open Conductor.Tree

variable {plan : Plan} {u v w w' : World} {run : RunId} {n m : Node} {h : Head} {r : Result} {payload : Entries}
  {notes last recent later earlier : List Note} {t : FutureId} {stack : List Frame} {slot start : Nat}

/-! ### What a completion leaves -/

/-- A node that completes shows the time since the moment from which its call counts. -/
theorem complete_took {started : Nat} (done : w.complete plan run n r started = .ok w') {s : NodeState}
    (there : w'.nodes[n.slot]? = some s) : s.duration = w.elapsed started := by
  unfold complete at done
  split at done
  · cases done
  · obtain rfl := Except.ok.inj done
    have here : ((w.nodes.modify n.slot fun s => { s with
        executing := false, executed := true, output := r.payload, outputPath := r.path,
        duration := w.elapsed started })[n.slot]?) = some s := by
      split at there <;> exact there
    rw [Array.getElem?_modify, if_pos rfl] at here
    obtain ⟨s', -, rfl⟩ := Option.map_eq_some_iff.mp here
    rfl

/-- What an act does by which a node completes, and notes some more: nothing more is noted, the duration of the node
counts from the time of its call, and the task turns to what its output leads to. -/
structure Completes (w : World) (run : RunId) (h : Head) (r : Result) (t : FutureId) (stack : List Frame)
    (more : List Note) (w' : World) (next : Focus) (call : Call) (body : Option FutureId) : Prop where
  own : h = call.node.head
  final : more = []
  took : ∀ s, w'.nodes[h.slot]? = some s → s.duration = w.elapsed call.started
  next : next = .enter t (.follow run call.node r) (.following run call body :: stack)

theorem Lost.uncompleted {e : Raised} {pre : List Note} {next : Focus} {other : RunId}
    (lost : Lost other h e pre t stack w notes w' next) (none : ∀ h r payload, (run, .completed h r payload) ∉ pre)
    (h' : Head) : (run, .completed h' r payload) ∉ notes :=
  fun noted => none _ _ _ (lost.of_completed noted)

theorem Finished.completes {call : Call} {body : Option FutureId} {pre : List Note} {next : Focus} {other : RunId}
    (finished : Finished plan other call body pre t stack w notes w' next)
    (none : ∀ h r payload, (run, .completed h r payload) ∉ pre)
    (split : notes = last ++ (run, .completed h r payload) :: recent) :
    Completes w run h r t stack last w' next call body := by
  have noted : (run, .completed h r payload) ∈ notes := split ▸ List.mem_append_right _ List.mem_cons_self
  cases finished with
  | lost lost => exact (lost.uncompleted none _ noted).elim
  | moot _ _ => exact (none _ _ _ noted).elim
  | followed first _ done _ =>
    cases last with
    | cons x last =>
      obtain ⟨-, rfl⟩ := List.cons.inj split
      exact (none _ _ _ (List.mem_append_right last List.mem_cons_self)).elim
    | nil =>
      obtain ⟨same, -⟩ := List.cons.inj split
      obtain ⟨rfl, completed⟩ := Prod.mk.inj same
      obtain ⟨rfl, rfl, -⟩ := Happening.completed.inj completed
      refine ⟨rfl, rfl, fun s there => ?_, rfl⟩
      rw [complete_took done there, elapsed, elapsed, first.clock]

theorem Act.completes {focus next : Focus} {tasks : List (FutureId × Routine)}
    (act : Act plan w focus notes tasks w' next) (split : notes = last ++ (run, .completed h r payload) :: recent) :
    ∃ t stack call body, Completes w run h r t stack last w' next call body := by
  have noted : (run, .completed h r payload) ∈ notes := split ▸ List.mem_append_right _ List.mem_cons_self
  have rejected {other : RunId} (only : Rejections other notes) : False := by
    obtain ⟨ms, e, same⟩ := only _ noted
    cases same
  cases act with
  | sequenced _ _ finished => exact ⟨_, _, _, _, finished.completes (by simp) split⟩
  | returned finished => exact ⟨_, _, _, _, finished.completes (by simp) split⟩
  | completed finished _ => exact ⟨_, _, _, _, finished.completes (by simp) split⟩
  | undispatched _ lost => exact (lost.uncompleted (by simp) _ noted).elim
  | unasked lost _ => exact (lost.uncompleted (by simp) _ noted).elim
  | unreturned lost => exact (lost.uncompleted (by simp) _ noted).elim
  | uncompleted lost => exact (lost.uncompleted (by simp) _ noted).elim
  | rejected losing => exact (rejected losing.only).elim
  | unfollowed losing => exact (rejected losing.only).elim
  | unfinished losing => exact (rejected losing.only).elim
  | resolved _ _ only _ _ =>
    obtain ⟨ms, same⟩ := only _ noted
    cases same
  | _ => simp at noted

/-- When a node completes, its duration counts from the time at which it was noted to be called. -/
theorem Noting.took (before : Reachable plan w) (m : Move plan w w') (compiled : plan.tree.Compiled)
    (noting : Noting plan w notes w') (split : notes = last ++ (run, .completed h r payload) :: recent) :
    last = [] ∧ ∃ started args, (run, started, .called h args) ∈ w'.journal ∧
      ∀ s, w'.nodes[h.slot]? = some s → s.duration = w.elapsed started := by
  have noted : (run, .completed h r payload) ∈ notes := split ▸ List.mem_append_right _ List.mem_cons_self
  obtain ⟨aim, ordered⟩ := (before.move m).ordered compiled
  cases noting with
  | acted act =>
    obtain ⟨t, stack, call, body, rfl, first, took, next⟩ := act.completes split
    obtain ⟨a, -, fits⟩ := ordered.entered next
    cases fits with
    | played own _ => cases own
    | following tended _ _ _ =>
      obtain ⟨args, called⟩ := tended.dates
      exact ⟨first, call.started, args, called, took⟩
  | quiet _ => cases noted
  | told _ _ ends _ =>
    cases ends with
    | quiet _ _ _ => cases noted
    | doomed _ _ _ => cases noted
    | unheard _ _ => cases List.mem_singleton.mp noted
    | rejecting _ only _ _ =>
      rcases List.mem_append.mp noted with rejection | failure
      · obtain ⟨ms, e, same⟩ := only _ rejection
        cases same
      · cases List.mem_singleton.mp failure

/-! ### What nodes show of their time -/

theorem Prelude.spares_node (prelude : Prelude plan w w') {s' : NodeState} (found : w'.nodes[slot]? = some s') :
    ∃ s, w.nodes[slot]? = some s ∧ s'.executed = s.executed ∧ s'.duration = s.duration := by
  cases prelude with
  | aside aside => exact ⟨s', aside.nodes ▸ found, rfl, rfl⟩
  | @called w₁ _ other n aside begun =>
    subst begun
    have here : (w₁.beginNode plan other n).nodes[slot]? = some s' := found
    rw [(beginNode_marked plan other n).nodes, Array.getElem?_modify, aside.nodes] at here
    split at here
    · obtain ⟨s, before, rfl⟩ := Option.map_eq_some_iff.mp here
      exact ⟨s, before, rfl, rfl⟩
    · exact ⟨s', here, rfl, rfl⟩

theorem Sequel.spares_node (sequel : Sequel plan w w') {new : List Note} (added : w'.course = new ++ w.course)
    (other : ∀ run h r payload, (run, .completed h r payload) ∈ new → h.slot ≠ slot) :
    w'.nodes[slot]? = w.nodes[slot]? := by
  cases sequel with
  | aside aside => rw [aside.nodes]
  | @merged w₁ _ _ run n r started first done rest =>
    have merged := complete_merged done
    have here : w'.course = [(run, .completed n.head r ((w₁.heap.mapping? r.payload).getD []))] ++ w.course := by
      rw [rest.course, merged.course, first.course]
      rfl
    obtain rfl := List.append_cancel_right (here.symm.trans added)
    have apart : n.slot ≠ slot := other run n.head r _ (List.mem_singleton_self _)
    obtain ⟨ms, nodes⟩ := merged.nodes
    rw [rest.nodes, nodes, Array.getElem?_modify, if_neg apart, first.nodes]

/-- A step leaves on a node that it does not complete whether that has executed, and how long it took. -/
theorem Phases.spares_node (phases : Phases plan w w') {new : List Note} (added : w'.course = new ++ w.course)
    (other : ∀ run h r payload, (run, .completed h r payload) ∈ new → h.slot ≠ slot) {s' : NodeState}
    (found : w'.nodes[slot]? = some s') :
    ∃ s, w.nodes[slot]? = some s ∧ s'.executed = s.executed ∧ s'.duration = s.duration := by
  obtain ⟨prelude, played, sequel⟩ := phases
  obtain ⟨first, before⟩ := prelude.course
  obtain ⟨more, after⟩ := sequel.course
  have code : (userCode plan w).2.course = (userCode plan w).1.course := course_congr played.journal
  have split : new = more ++ first := by
    rw [after, code, before, ← List.append_assoc] at added
    exact (List.append_cancel_right added).symm
  rw [sequel.spares_node after fun run h r payload there =>
      other run h r payload (split ▸ List.mem_append_left _ there),
    played.nodes] at found
  exact prelude.spares_node found

/-- Whether a run has called the node with a slot and completed it so many milliseconds later. -/
def Lasted (w : World) (run : RunId) (slot ms : Nat) : Prop :=
  ∃ h args r payload called completed, h.slot = slot ∧ (run, called, .called h args) ∈ w.journal ∧
    (run, completed, .completed h r payload) ∈ w.journal ∧ ms = (completed - called) * tickLength

theorem Lasted.grown {ms : Nat} (lasted : w.Lasted run slot ms) (grown : w.journal <:+ w'.journal) :
    w'.Lasted run slot ms := by
  obtain ⟨h, args, r, payload, called, completed, own, there, there', same⟩ := lasted
  exact ⟨h, args, r, payload, called, completed, own, grown.subset there, grown.subset there', same⟩

/-- Whether the nodes that have executed show how long a run took for them. -/
def Lasts (w : World) (run : RunId) : Prop :=
  ∀ slot s, w.nodes[slot]? = some s → s.executed → w.Lasted run slot s.duration

theorem Calm.lasts (calm : Calm plan w w') (alone : Alone plan w run) (reached : Reachable plan w)
    (compiled : plan.tree.Compiled) (lasts : w.Lasts run) : w'.Lasts run := by
  obtain ⟨notes, noting⟩ := calm.move.noting reached.sound
  obtain ⟨journal, -⟩ := noting.stamped
  have grown : w.journal <:+ w'.journal := ⟨_, journal.symm⟩
  intro slot s found executed
  have added : w'.course = notes.filter (fun x => x.2.counts) ++ w.course := by
    rw [course, noting.noted, List.filter_append]
    rfl
  -- the move completes the node and stamps it, or it leaves what the node shows
  by_cases completes : ∃ other h r payload, h.slot = slot ∧ (other, .completed h r payload) ∈ notes
  · obtain ⟨other, h, r, payload, rfl, completed⟩ := completes
    obtain rfl : other = run :=
      alone.mine reached calm.move calm.records added _ (List.mem_filter.mpr ⟨completed, rfl⟩)
    obtain ⟨last, recent, split⟩ := List.append_of_mem completed
    obtain ⟨-, started, args, called, took⟩ := noting.took reached calm.move compiled split
    exact ⟨h, args, r, payload, started, w.clock, rfl, called,
      journal ▸ List.mem_append_left _ (List.mem_map_of_mem completed), took s found⟩
  · rcases calm.kept with nodes | ⟨stepped, other⟩
    · exact (lasts slot s (nodes ▸ found) executed).grown grown
    · obtain ⟨s', before, same, same'⟩ := (step_phases stepped other).spares_node added
        (fun other h r payload there own => completes ⟨other, h, r, payload, own, List.mem_of_mem_filter there⟩) found
      rw [same']
      exact (lasts slot s' before (same ▸ executed)).grown grown

theorem Lasts.calms (calm : Relation.ReflTransGen (Calm plan) w w') (reached : Reachable plan w)
    (compiled : plan.tree.Compiled) (alone : Alone plan w run) (lasts : w.Lasts run) : w'.Lasts run := by
  induction calm with
  | refl => exact lasts
  | tail before last ih =>
    obtain ⟨reached', alone'⟩ := Alone.calms before reached compiled alone
    exact last.lasts alone' reached' compiled ih

theorem Launch.lasts (launch : Launch u.records.size u v) (reached : Reachable plan u)
    (alone : Alone plan v u.records.size) : v.Lasts u.records.size := by
  intro slot s found executed
  obtain ⟨h, r, payload, -, completed⟩ := (alone.shows slot s found).executed executed
  have noted := List.mem_of_mem_filter completed
  rw [launch.noted] at noted
  exact absurd (reached.recorded .complete noted rfl) (Nat.lt_irrefl _)

theorem Launch.clocked (launch : Launch run u v) : v.Clocked run u.clock := by
  obtain ⟨r, known, started⟩ := Option.map_eq_some_iff.mp launch.started
  refine ⟨r, known, started, fun past => ?_⟩
  rw [← status_of_record known, launch.running] at past
  cases past

/-! ### The order of moments -/

/-- The moment at which a run has brought a node to a stage: how many notes were made before. -/
def reachedAt (w : World) (stage : Stage) (run : RunId) (n : Node) : Nat := w.momentOf (stage.marks run n.slot)

def settledAt (w : World) (run : RunId) : Nat := w.momentOf (settles run)

section Order

variable (reached : Reachable plan w)
include reached

/-- A run that has settled has completed a node before, if it ever did. -/
theorem completed_lt_settled {s : Status} (completed : (run, .completed n.head r payload) ∈ w.notes)
    (settled : (run, .settled s) ∈ w.notes) : w.reachedAt .complete run n < w.settledAt run := by
  apply momentOf_lt_momentOf ⟨_, settled, settles_iff.mpr ⟨s, rfl⟩⟩
  intro later x earlier split here
  obtain ⟨s, rfl⟩ := settles_iff.mp here
  refine ⟨(run, .completed n.head r payload), ?_, Stage.marks_iff.mpr ⟨rfl, n.head, rfl, rfl⟩⟩
  rw [split] at completed
  rcases List.mem_append.mp completed with late | early
  · cases reached.ceases.1 later earlier run s split _ late
  · exact (List.mem_cons.mp early).resolve_left (by simp)

variable (compiled : plan.tree.Compiled)
include compiled

theorem Reachable.called_before (split : w.notes = later ++ (run, .completed h r payload) :: earlier) :
    ∃ args, (run, .called h args) ∈ earlier := by
  obtain ⟨v, v', last, recent, before, m, noting, rfl⟩ := reached.moment _ split
  obtain ⟨rfl, started, args, called, -⟩ := noting.took before m compiled rfl
  have noted : (run, .called h args) ∈ v'.notes := List.mem_map_of_mem called
  rw [noting.noted] at noted
  exact ⟨args, (List.mem_cons.mp noted).resolve_left (by simp)⟩

theorem called_lt_completed (completed : (run, .completed n.head r payload) ∈ w.notes) :
    w.reachedAt .call run n < w.reachedAt .complete run n := by
  apply momentOf_lt_momentOf ⟨_, completed, Stage.marks_iff.mpr ⟨rfl, _, rfl, rfl⟩⟩
  rintro later ⟨other, x⟩ earlier split here
  obtain ⟨rfl, h, completes, own⟩ := Stage.marks_iff.mp here
  cases x <;> cases completes
  obtain ⟨args, called⟩ := reached.called_before compiled split
  exact ⟨_, called, Stage.marks_iff.mpr ⟨rfl, h, rfl, own⟩⟩

/-- A run that comes to two nodes of which one is ahead of the other completes that one before it calls the
other. -/
theorem completed_lt_called {args : Entries} (declares : plan.tree.Declares) (known : n ∈ plan.tree.nodes)
    (known' : m ∈ plan.tree.nodes) (ahead : plan.tree.Ahead n m)
    (completed : (run, .completed n.head r payload) ∈ w.notes) (called : (run, .called m.head args) ∈ w.notes) :
    w.reachedAt .complete run n < w.reachedAt .call run m := by
  apply momentOf_lt_momentOf ⟨_, called, Stage.marks_iff.mpr ⟨rfl, _, rfl, rfl⟩⟩
  rintro later ⟨other, x⟩ earlier split here
  obtain ⟨rfl, h, calls, own⟩ := Stage.marks_iff.mp here
  cases x <;> cases calls
  obtain ⟨m', rfl, stood⟩ := reached.stood compiled (split ▸ List.mem_append_right _ List.mem_cons_self)
  obtain rfl := compiled.eq_of_slot stood.mem known' own
  have first := called_ahead reached compiled declares known completed known' ahead split
  exact ⟨_, first, Stage.marks_iff.mpr ⟨rfl, n.head, rfl, rfl⟩⟩

/-- Without groups a run completes, of any two nodes that it completes, the one that the walk meets first before it
calls the other. -/
theorem completed_lt_called_of_flat {graph : Item} (made : Graph.compile graph = .ok plan.tree)
    (declares : plan.tree.Declares) (flat : areFlat plan.tree.branches) (both : [n, m].Sublist plan.tree.nodes)
    {r' : Result} {payload' : Entries} (completed : (run, .completed n.head r payload) ∈ w.notes)
    (completed' : (run, .completed m.head r' payload') ∈ w.notes) :
    w.reachedAt .complete run n < w.reachedAt .call run m := by
  have known : n ∈ plan.tree.nodes := both.subset List.mem_cons_self
  have known' : m ∈ plan.tree.nodes := both.subset (List.mem_cons_of_mem _ List.mem_cons_self)
  have less := slot_lt_of_sublist made both
  obtain ⟨later, earlier, split⟩ := List.append_of_mem completed'
  obtain ⟨args, called⟩ := reached.called_before compiled split
  have called : (run, .called m.head args) ∈ w.notes :=
    split ▸ List.mem_append_right _ (List.mem_cons_of_mem _ called)
  cases arranged declares known known' with
  | same same =>
    subst same
    omega
  | ahead ahead => exact completed_lt_called reached compiled declares known known' ahead completed called
  | behind behind =>
    have more := slot_lt_of_sublist made (behind.sublist ((mem_nodes_iff declares).mp known'))
    omega
  | beside beside => exact (not_beside flat beside).elim
  | exclusive exclusive =>
    exact (not_exclusive reached compiled declares known completed known' completed' exclusive).elim

end Order

/-! ### Lapses -/

/-- How long a run had a node under way on a clock that tells the time of every moment. -/
def lapse (w : World) (clock : Nat → Int) (run : RunId) (n : Node) : Int :=
  clock (w.reachedAt .complete run n) - clock (w.reachedAt .call run n)

/-- How long a run took on such a clock from its start to its settlement. -/
def span (w : World) (clock : Nat → Int) (start : Int) (run : RunId) : Int := clock (w.settledAt run) - start

/-- Whether on a clock no node was under way for longer than its run, and without groups not even all of them
together. -/
structure Fills (plan : Plan) (w : World) (run : RunId) (clock : Nat → Int) (start : Int) : Prop where
  forth : ∀ n ∈ w.executedNodes plan.tree, 0 ≤ w.lapse clock run n
  within : ∀ n ∈ w.executedNodes plan.tree, w.lapse clock run n ≤ w.span clock start run
  together : areFlat plan.tree.branches →
    ((w.executedNodes plan.tree).map (w.lapse clock run)).sum ≤ w.span clock start run

/-- Lapses that do not overlap take no longer together than the time in which they all lie. -/
theorem sum_lapses_le {clock : Nat → Int} (mono : Monotone clock) {first final : Nat} {nodes : List Node}
    (apart : nodes.Pairwise fun n m => w.reachedAt .complete run n ≤ w.reachedAt .call run m)
    (within : ∀ n ∈ nodes, first ≤ w.reachedAt .call run n ∧
      w.reachedAt .call run n ≤ w.reachedAt .complete run n ∧ w.reachedAt .complete run n ≤ final)
    (le : first ≤ final) : (nodes.map (w.lapse clock run)).sum ≤ clock final - clock first := by
  induction nodes generalizing first with
  | nil =>
    have passed := mono le
    simp only [List.map_nil, List.sum_nil]
    omega
  | cons n rest ih =>
    obtain ⟨after, apart⟩ := List.pairwise_cons.mp apart
    obtain ⟨begun, -, past⟩ := within n List.mem_cons_self
    -- what is left lies between the completion of the first node and the end
    have others := ih apart (fun m member =>
      ⟨after m member, (within m (List.mem_cons_of_mem _ member)).2⟩) past
    have waited := mono begun
    simp only [List.map_cons, List.sum_cons, lapse] at others ⊢
    omega

theorem le_settledAt (split : w.notes = later ++ earlier) (unsettled : ∀ s, (run, .settled s) ∉ earlier) :
    earlier.length ≤ w.settledAt run := by
  refine le_momentOf split fun x member => ?_
  by_contra ended
  obtain ⟨s, rfl⟩ := settles_iff.mp (by simpa using ended)
  exact unsettled s member

/-- Whatever the clock, the nodes of a run that has settled fill no more than its time. -/
theorem fills {graph : Item} (made : Graph.compile graph = .ok plan.tree) (declares : plan.tree.Declares)
    (reached : Reachable plan w) (split : w.notes = later ++ earlier)
    (uncalled : ∀ h args, (run, .called h args) ∉ earlier) (unsettled : ∀ s, (run, .settled s) ∉ earlier) {s : Status}
    (settled : (run, .settled s) ∈ w.notes)
    (completed : ∀ n ∈ w.executedNodes plan.tree, ∃ r payload, (run, .completed n.head r payload) ∈ w.notes)
    {clock : Nat → Int} (mono : Monotone clock) {start : Int} (begun : start ≤ clock earlier.length) :
    w.Fills plan run clock start := by
  have compiled := Tree.compiled_of_compile made
  have within (n : Node) (member : n ∈ w.executedNodes plan.tree) : earlier.length ≤ w.reachedAt .call run n ∧
      w.reachedAt .call run n ≤ w.reachedAt .complete run n ∧ w.reachedAt .complete run n ≤ w.settledAt run := by
    obtain ⟨r, payload, noted⟩ := completed n member
    have first := called_lt_completed reached compiled noted
    have last := completed_lt_settled reached noted settled
    refine ⟨le_momentOf split fun x member => ?_, by omega, by omega⟩
    by_contra marked
    obtain ⟨rfl, h, calls, -⟩ := Stage.marks_iff.mp (by simpa using marked)
    obtain ⟨_, x⟩ := x
    cases x <;> cases calls
    exact uncalled _ _ member
  refine ⟨fun n member => ?_, fun n member => ?_, fun flat => ?_⟩
  · obtain ⟨-, forth, -⟩ := within n member
    have passed := mono forth
    simp only [lapse]
    omega
  · obtain ⟨after, -, before⟩ := within n member
    have waited := mono after
    have passed := mono before
    simp only [lapse, span]
    omega
  · have apart : (w.executedNodes plan.tree).Pairwise fun n m =>
        w.reachedAt .complete run n ≤ w.reachedAt .call run m := by
      apply List.pairwise_iff_forall_sublist.mpr
      intro n m both
      obtain ⟨r, payload, first⟩ := completed n (both.subset List.mem_cons_self)
      obtain ⟨r', payload', second⟩ := completed m (both.subset (List.mem_cons_of_mem _ List.mem_cons_self))
      exact Nat.le_of_lt (completed_lt_called_of_flat reached compiled made declares flat
        (both.trans List.filter_sublist) first second)
    have total := sum_lapses_le mono apart within (le_settledAt split unsettled)
    simp only [span]
    omega

/-! ### The clock of the machine -/

/-- A note that a run brings a node to a stage bears the time of its moment. -/
theorem reading_reachedAt (reached : Reachable plan w) (compiled : plan.tree.Compiled) (stage : Stage) {x : Happening}
    {time : Nat} (noted : (run, time, x) ∈ w.journal) (here : stage.reached? x = some h) (own : h.slot = n.slot) :
    w.reading (w.reachedAt stage run n) = (time * tickLength : Nat) := by
  obtain ⟨after, before, split⟩ := List.append_of_mem noted
  refine reading_momentOf split (Stage.marks_iff.mpr ⟨rfl, h, here, own⟩) fun y member => ?_
  by_contra marked
  obtain ⟨mine, h', there, own'⟩ := Stage.marks_iff.mp (by simpa using marked)
  have parted : w.notes = (after.map (fun x => (x.1, x.2.2)) ++ [(run, x)]) ++ before.map fun x => (x.1, x.2.2) := by
    rw [World.notes, split]
    simp
  have old : (run, y.2.2) ∈ before.map fun x => (x.1, x.2.2) := by
    have there := List.mem_map_of_mem (f := fun x => (x.1, x.2.2)) member
    rwa [show y.1 = run from mine] at there
  exact reached.once compiled stage parted (by simp) old here there (own.trans own'.symm)

theorem reading_settledAt (reached : Reachable plan w) {time : Nat} {s : Status}
    (noted : (run, time, .settled s) ∈ w.journal) : w.reading (w.settledAt run) = (time * tickLength : Nat) := by
  obtain ⟨after, before, split⟩ := List.append_of_mem noted
  refine reading_momentOf split (settles_iff.mpr ⟨s, rfl⟩) fun y member => ?_
  by_contra again
  obtain ⟨s', same⟩ := settles_iff.mp (by simpa using again)
  obtain ⟨more, rest, rfl⟩ := List.append_of_mem member
  have parted : w.notes = (after.map (fun x => (x.1, x.2.2)) ++ (run, .settled s) :: more.map fun x => (x.1, x.2.2)) ++
      (run, .settled s') :: rest.map fun x => (x.1, x.2.2) := by
    rw [World.notes, split, ← same]
    simp
  cases reached.ceases.1 _ _ run s' parted (.settled s) (by simp)

theorem Lasts.lapse (lasts : w.Lasts run) (reached : Reachable plan w) (compiled : plan.tree.Compiled)
    (bound : n.slot < w.nodes.size) (executed : (w.nodeState n).executed)
    (completed : (run, .completed n.head r payload) ∈ w.notes) :
    w.lapse w.reading run n = (w.nodeState n).duration := by
  have found : w.nodes[n.slot]? = some (w.nodeState n) := by simp [nodeState, bound]
  obtain ⟨h, args, r, payload, called, ended, own, there, there', took⟩ := lasts n.slot _ found executed
  have forth := reached.chronological.monotone (called_lt_completed reached compiled completed).le
  have first := reading_reachedAt reached compiled .call there rfl own
  have last := reading_reachedAt reached compiled .complete there' rfl own
  rw [first, last] at forth
  rw [World.lapse, first, last, took]
  unfold tickLength at *
  omega

theorem Clocked.span (clocked : w.Clocked run start) (reached : Reachable plan w) (settled : w.isSettled run)
    (begun : (start * tickLength : Nat) ≤ w.reading (w.settledAt run)) :
    w.span w.reading (start * tickLength : Nat) run = (w.status run).duration := by
  obtain ⟨r, known, -, settles⟩ := clocked
  rw [isSettled, status_of_record known] at settled
  obtain ⟨time, noted, took⟩ := settles settled
  have final := reading_settledAt reached noted
  rw [final] at begun
  rw [World.span, final, status_of_record known, took]
  unfold tickLength at *
  omega

/-- A node that shows that it has executed was completed by the run that is alone. -/
theorem Alone.completed_of_executed (alone : Alone plan w run) (reached : Reachable plan w) {graph : Item}
    (made : Graph.compile graph = .ok plan.tree) (member : n ∈ w.executedNodes plan.tree) :
    n.slot < w.nodes.size ∧ ∃ r payload, (run, .completed n.head r payload) ∈ w.notes := by
  obtain ⟨known, executed⟩ := List.mem_filter.mp member
  have bound : n.slot < w.nodes.size := alone.size ▸ Tree.slot_lt_of_compile made known
  have found : w.nodes[n.slot]? = some (w.nodeState n) := by simp [nodeState, bound]
  obtain ⟨h, r, payload, own, noted⟩ := (alone.shows n.slot _ found).executed executed
  exact ⟨bound, r, payload, reached.completed_at (Tree.compiled_of_compile made) known own noted⟩

/-- Nothing is noted of calls or of the end of a run before it is made. -/
theorem Reachable.unnoted (reached : Reachable plan u) :
    (∀ h args, (u.records.size, .called h args) ∉ u.notes) ∧ ∀ s, (u.records.size, .settled s) ∉ u.notes := by
  refine ⟨fun h args called => Nat.lt_irrefl _ (reached.recorded .call called rfl), fun s ended => ?_⟩
  obtain ⟨r, known, -⟩ := record?_isSome (reached.ceases.2 _ s ended)
  simp [record?] at known

/-- Of a run that has the runner for itself no executed node has been under way for longer than the run has taken
once it has settled, and in a tree without groups not even all of them together, those behind outputs included. So
it is on the clock of the machine, by which the nodes and the record show how long they took, and on any other
one that never goes back. -/
theorem time_is_accounted_for {graph : Item} (compiled : Graph.compile graph = .ok plan.tree)
    (declares : plan.tree.Declares) {given : Value} (reached : Reachable plan u)
    (sized : u.nodes.size = plan.tree.nodeCount) (starting : u.focus = .enter t (.runner given) stack)
    (free : ∀ other < u.records.size, u.isSettled other) (started : u.step plan = some v)
    (new : v.records.size = u.records.size + 1) (calm : Relation.ReflTransGen (Calm plan) v w)
    (settled : w.isSettled u.records.size) :
    (∀ n ∈ w.executedNodes plan.tree, (w.nodeState n).duration ≤ (w.status u.records.size).duration) ∧
    (areFlat plan.tree.branches →
      ((w.executedNodes plan.tree).map fun n => (w.nodeState n).duration).sum ≤ (w.status u.records.size).duration) ∧
    (Monotone w.reading ∧
      w.span w.reading (u.clock * tickLength : Nat) u.records.size = (w.status u.records.size).duration ∧
      ∀ n ∈ w.executedNodes plan.tree, w.lapse w.reading u.records.size n = (w.nodeState n).duration) ∧
    ∀ clock start, Monotone clock → start ≤ clock u.notes.length → w.Fills plan u.records.size clock start := by
  have made := Tree.compiled_of_compile compiled
  have first : Move plan u v := .stepped started
  have fresh := Alone.start reached sized starting free started new
  have moves : Moves plan v w := calm.lift id fun _ _ last => last.move
  obtain ⟨reached', alone⟩ := Alone.calms calm (reached.move first) made fresh
  have launch : Launch u.records.size u v := first.launch (by simp [record?]) (by simp [record?, new])
  have lasts := Lasts.calms calm (reached.move first) made fresh (launch.lasts reached fresh)
  have clocked := launch.clocked.moves (reached.move first) moves
  have mono := reached'.chronological.monotone
  -- whatever is noted of the run was noted after it was made
  obtain ⟨more, journal, since, now⟩ := Moves.since (moves.head first) reached
  have split : w.notes = more.map (fun x => (x.1, x.2.2)) ++ u.notes := by
    rw [World.notes, journal, List.map_append]
    rfl
  obtain ⟨uncalled, unsettled⟩ := reached.unnoted
  have completed (n : Node) (member : n ∈ w.executedNodes plan.tree) :=
    alone.completed_of_executed reached' compiled member
  have all (clock : Nat → Int) (start : Int) (mono : Monotone clock) (begun : start ≤ clock u.notes.length) :
      w.Fills plan u.records.size clock start := by
    obtain ⟨r, known, -, settles⟩ := id clocked
    rw [isSettled, status_of_record known] at settled
    obtain ⟨time, noted, -⟩ := settles settled
    exact fills compiled declares reached' split uncalled unsettled (List.mem_map_of_mem noted)
      (fun n member => (completed n member).2) mono begun
  have begun : (u.clock * tickLength : Nat) ≤ w.reading u.notes.length := by
    rw [World.notes, List.length_map]
    exact le_reading journal since now
  have whole := clocked.span reached' settled (begun.trans (mono (le_settledAt split unsettled)))
  have part (n : Node) (member : n ∈ w.executedNodes plan.tree) :
      w.lapse w.reading u.records.size n = (w.nodeState n).duration := by
    obtain ⟨bound, r, payload, noted⟩ := completed n member
    exact lasts.lapse reached' made bound (List.mem_filter.mp member).2 noted
  have fills := all w.reading _ mono begun
  refine ⟨fun n member => ?_, fun flat => ?_, ⟨mono, whole, part⟩, all⟩
  · have within := fills.within n member
    rw [part n member, whole] at within
    exact Int.ofNat_le.mp within
  · have together := fills.together flat
    rw [whole, List.map_congr_left part] at together
    apply Int.ofNat_le.mp
    simpa [Nat.cast_list_sum, Function.comp_def] using together

/-- A node that waits and takes its first output, behind which another one waits, and then one that waits and fails. -/
def lapsingItems : List Item :=
  let waits (token : Nat) (label : String) (ticks : Nat) (rest : List Step) : Item :=
    .leaf (.object token 0) (.function {
      label
      isAsync := true
      signature := [⟨"args", .standard, false⟩, ⟨"store", .standard, false⟩, ⟨"completion", .standard, false⟩]
      steps := .sleep ticks :: rest } {})
  [waits 0 "a" 2 [.call [.text "x"]],
    .mapping (.object 1 0) false [
      (.atom (.text "x"), .list [waits 2 "b" 1 [.call []]]),
      (.atom (.text "y"), .list [waits 3 "c" 1 [.call []]])],
    waits 4 "d" 1 [.raise "ValueError" none]]

def lapsing : Plan where
  tree := Graph.compileItems lapsingItems

/-- The run is rejected after half a second, of which the two nodes that have executed fill what is theirs. -/
theorem rejected_run_covers_its_nodes : ∃ w : World, (w.executedNodes lapsing.tree).map Node.slot = [0, 1] ∧
    (w.status 0).duration = 500 ∧
    ((w.executedNodes lapsing.tree).map fun n => (w.nodeState n).duration).sum ≤ (w.status 0).duration ∧
    w.Fills lapsing 0 (fun k => 7 * k) 0 := by
  let u := firstRun lapsing 2
  let v := firstRun lapsing 3
  have reached : Reachable lapsing u := reachable_firstRun lapsing 2
  have compiled : Graph.compile (.list lapsingItems) = .ok lapsing.tree := rfl
  have declares : lapsing.tree.Declares := by
    unfold Tree.Declares
    decide +kernel
  have starting : u.focus = .enter 0 (.runner (.atom .null)) [] := rfl
  have started : u.step lapsing = some v := rfl
  have flat : areFlat lapsing.tree.branches := by decide +kernel
  have result : (calmSteps lapsing 47 v).any fun w => w.isSettled 0 && (w.status 0).duration == 500 &&
      (w.executedNodes lapsing.tree).map Node.slot == [0, 1] := by decide +kernel
  obtain ⟨w, steps, all⟩ := (Option.any_eq_true _ _).mp result
  simp only [Bool.and_eq_true, beq_iff_eq] at all
  obtain ⟨⟨settled, took⟩, executed⟩ := all
  obtain ⟨-, total, -, every⟩ := time_is_accounted_for compiled declares reached rfl starting
    (fun _ earlier => nomatch earlier) started rfl (calm_of_calmSteps steps) settled
  refine ⟨w, executed, took, total flat, every (fun k => 7 * k) 0 (fun i j le => ?_) (Int.le_refl _)⟩
  show (7 * i : Int) ≤ 7 * j
  omega

end World

end Conductor
