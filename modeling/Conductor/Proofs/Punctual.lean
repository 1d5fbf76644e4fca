import Conductor.Proofs.Agreement
import Conductor.Proofs.Smooth

/-!
# Punctual runs

A run is punctual when its actions have done their part as soon as their calls return. All members of a group
are then called before the first of their chains begins, but the chains go through one after the other, as
nodes in a list do. So no node fails, and all complete in the order of the walk.
-/

namespace Conductor.World

open Conductor.Tree

variable {plan : Plan} {u v w w' : World} {run : RunId} {entries : Entries} {aim : FutureId → Aim} {n m : Node}
  {r r' : Result} {payload payload' : Entries} {later earlier : List Note}

/-! ### Members before members -/

/-- Whether a node lies in an earlier member of a group in the root list than another node. -/
inductive Foregoes (t : Tree) (n m : Node) : Prop where
  | mk {members : List Entry} {i j : Nat} {x y : Entry} (group : .nested members ∈ t.branches) (less : i < j)
      (first : members[i]? = some x) (second : members[j]? = some y) (within : n ∈ x.nodes) (within' : m ∈ y.nodes)

theorem Foregoes.sublist {t : Tree} (foregoes : Foregoes t n m) : [n, m].Sublist t.nodes := by
  obtain ⟨group, less, first, second, within, within'⟩ := foregoes
  obtain ⟨k, found⟩ := List.getElem?_of_mem group
  have inside := nodes_sublist found
  rw [Entry.nodes] at inside
  exact (sublist_of_lt less first second within within').trans inside

/-- Whether no node has completed after nodes in later members of its group. -/
def Lined (plan : Plan) (run : RunId) (w : World) : Prop :=
  ∀ n m r payload r' payload' later earlier, Foregoes plan.tree n m →
    w.notes = later ++ (run, .completed n.head r payload) :: earlier →
      (run, .completed m.head r' payload') ∉ earlier

theorem Reachable.called_above (reached : Reachable plan w) (compiled : plan.tree.Compiled)
    (declares : plan.tree.Declares) (known : n ∈ plan.tree.nodes) (within : m ∈ n.nodes)
    (completed : (run, .completed m.head r payload) ∈ w.notes) :
    ∃ args, (run, .called n.head args) ∈ w.notes := by
  obtain ⟨r₁, payload₁, above⟩ : ∃ r payload, (run, .completed n.head r payload) ∈ w.notes := by
    rcases List.mem_cons.mp within with rfl | below
    · exact ⟨r, payload, completed⟩
    · obtain ⟨k, b, declared, inside⟩ := branch_of_mem below
      have there : m ∈ plan.tree.nodes := ((mem_nodes_iff declares).mp known).sublist.subset within
      have comes := (reached.stood_of_completed compiled there completed).comes compiled
      obtain ⟨r₁, payload₁, -, above, -⟩ := comes.owner compiled declares known declared inside
      exact ⟨r₁, payload₁, above⟩
  obtain ⟨args, called⟩ := reached.completed_called compiled (List.mem_filter.mpr ⟨above, rfl⟩)
  exact ⟨args, List.mem_of_mem_filter called⟩

/-- When a node in a later member has completed, the run is over with the earlier member. -/
theorem InLine.past (line : InLine plan aim run w) (reached : Reachable plan w) (compiled : plan.tree.Compiled)
    (declares : plan.tree.Declares) (ordered : Ordered plan aim w) (sturdy : Sturdy aim run w)
    (synchronous : Synchronous plan run w) (foregoes : Foregoes plan.tree n m)
    (completed : (run, .completed m.head r payload) ∈ w.notes) :
    ∃ p x, plan.tree.EntryAt p x ∧ n ∈ x.nodes ∧ w.Over run x := by
  obtain ⟨group, less, first, second, within, within'⟩ := foregoes
  obtain ⟨a, rfl⟩ := synchronous.members _ group _ (List.mem_of_getElem? first)
  obtain ⟨b, rfl⟩ := synchronous.members _ group _ (List.mem_of_getElem? second)
  obtain ⟨k, found⟩ := List.getElem?_of_mem group
  refine ⟨_, _, .member .root found first, within, ?_⟩
  have there : plan.tree.EntryAt _ b.entry := .member .root found second
  rw [nodes_entry] at within'
  obtain ⟨args, called⟩ := reached.called_above compiled declares
    (there.places.sublist.subset List.mem_cons_self) within' completed
  obtain ⟨c', chains'⟩ := line.called _ _ _ group (List.mem_of_getElem? second) called
  obtain ⟨c, earlier, chains⟩ := line.ahead _ _ _ _ _ _ group first second less chains'
  rcases line.line _ _ _ _ chains chains' earlier with ⟨r', waiting, stood⟩ | ⟨s, settled⟩
  · -- the chain of the later member has begun, because something in the member has completed
    obtain ⟨call, body, rfl, rfl⟩ := ordered.member reached.sound chains' stood
    exact (reached.uncompleted compiled stood within' _ _ completed).elim
  · have clear : ¬ w.Fatal run := fun ⟨h, e, failed, _⟩ => synchronous.unfailed h e failed
    have spent := sturdy.ended c s (by rw [chains.own]; rfl) chains.task settled
    cases s with
    | value v =>
      have holds := ordered.succeeded c chains.task ⟨v, settled⟩
      rwa [chains.own] at holds
    | failed e => exact .inl ((Blamed.why spent).resolve_right fun fatal => clear fatal.2)
    | cancelled cause => exact .inl (spent.1.resolve_right clear)

theorem Lined.move (lined : Lined plan run w) (line : InLine plan aim run w) (reached : Reachable plan w)
    (compiled : plan.tree.Compiled) (declares : plan.tree.Declares) (ordered : Ordered plan aim w)
    (sturdy : Sturdy aim run w) (synchronous : Synchronous plan run w) (move : Move plan w w') :
    Lined plan run w' := by
  intro n m r payload r' payload' later earlier foregoes split before
  obtain ⟨notes, noting⟩ := move.noting reached.sound
  rcases List.append_eq_append_iff.mp (noting.noted.symm.trans split) with ⟨more, -, rest⟩ | ⟨more, here, rest⟩
  · exact lined n m r payload r' payload' more earlier foregoes rest before
  cases more with
  | nil => exact lined n m r payload r' payload' [] earlier foregoes rest.symm before
  | cons y more =>
    obtain ⟨rfl, rfl⟩ := List.cons.inj rest
    have new : (run, .completed n.head r payload) ∈ notes := here ▸ by simp
    have both := foregoes.sublist
    have known : n ∈ plan.tree.nodes := both.subset List.mem_cons_self
    have known' : m ∈ plan.tree.nodes := both.subset (List.mem_cons_of_mem _ List.mem_cons_self)
    rcases List.mem_append.mp before with now | before
    · -- no move completes two nodes
      have new' : (run, .completed m.head r' payload') ∈ notes :=
        here ▸ List.mem_append_right _ (List.mem_cons_of_mem _ now)
      have same : n.head = m.head := by
        generalize own : n.head = h at new
        generalize own' : m.head = h' at new'
        cases noting.happens new with
        | completed call _ _ _ _ there =>
          cases noting.happens new' with
          | completed call' _ _ _ _ there' =>
            have focus := there.symm.trans there'
            obtain ⟨-, routine, -⟩ := Focus.enter.inj focus
            exact congrArg Node.head (Routine.follow.inj routine).2.1
      have distinct := (both.map Node.slot).nodup compiled.slots
      obtain rfl := compiled.eq_of_head known known' same
      simp at distinct
    · obtain ⟨p, x, found, within, past⟩ :=
        line.past reached compiled declares ordered sturdy synchronous foregoes before
      have running := (noting.completes reached compiled known move new).1
      have done : w.Done run x := past.resolve_left (by simp [running])
      have reached' := reached.move move
      have completed : (run, .completed n.head r payload) ∈ w'.notes := split ▸ by simp
      have grown := (move.grown reached.sound.steady).subset_notes
      have there := done.has_completed reached' compiled declares known completed found within grown
      exact reached'.once compiled .complete noting.noted new there rfl rfl rfl

/-! ### Punctual runs -/

/-- Whether a run was started from entries and has lived on until nothing was left to do, while its actions did
their part in their calls. Nobody but the executor has written the args. -/
structure Punctual (plan : Plan) (run : RunId) (entries : Entries) (w : World) : Prop where
  lived : ∃ u v, Launches plan run entries u v ∧ Relation.ReflTransGen (fun w w' =>
    Sparing plan (v.argsOf run) w w' ∧ Undisturbed plan run w w' ∧
      (w.step plan = some w' → isDutiful plan run w w')) v w
  done : w.step plan = none

structure Regular (plan : Plan) (aim : FutureId → Aim) (run : RunId) (w : World) : Prop where
  runs : Runs plan run w
  ordered : Ordered plan aim w
  loyal : Loyal aim w
  sturdy : Sturdy aim run w
  forthcoming : w.Forthcoming run
  smooth : Smooth run w
  line : Shallow plan run w → InLine plan aim run w ∧ Lined plan run w

theorem Shallow.synchronous (shallow : Shallow plan run w) (smooth : Smooth run w) : Synchronous plan run w :=
  ⟨shallow, smooth.unbegun, smooth.unfailed⟩

theorem Launch.regular (launch : Launch run u v) (before : Reachable plan u) (m : Move plan u v)
    (new : u.record? run = none) (known : (v.record? run).isSome) (compiled : plan.tree.Compiled) :
    ∃ aim, Regular plan aim run v := by
  have reached := before.move m
  obtain ⟨aim, ordered, loyal⟩ := reached.loyal compiled
  refine ⟨aim, .begun before m new known, ordered, loyal, launch.sturdy reached.sound loyal,
    launch.forthcoming reached.sound loyal, launch.smooth before compiled new reached.sound loyal,
    fun _ => ⟨launch.inLine before new ordered loyal, ?_⟩⟩
  intro n m r payload r' payload' later earlier _ split
  have there : (run, .completed n.head r payload) ∈ v.notes := split ▸ by simp
  rw [launch.noted] at there
  exact absurd (before.recorded .complete there rfl) (Nat.not_lt.mpr (Array.getElem?_eq_none_iff.mp new))

theorem Regular.move (regular : Regular plan aim run w) (compiled : plan.tree.Compiled)
    (declares : plan.tree.Declares) (m : Move plan w w') (undisturbed : Undisturbed plan run w w')
    (dutiful : w.step plan = some w' → isDutiful plan run w w') : Regular plan (aims aim w w') run w' := by
  obtain ⟨runs, ordered, loyal, sturdy, forthcoming, smooth, line⟩ := regular
  have reached := runs.reachable
  have ordered' := ordered.move reached compiled m
  have smooth' := smooth.move m reached dutiful ordered forthcoming
  refine ⟨runs.move m undisturbed, ordered', loyal.move reached m,
    sturdy.move reached m (m.later reached compiled) ordered loyal undisturbed ordered',
    forthcoming.move runs m ordered loyal ordered' dutiful, smooth', fun shallow => ?_⟩
  have before := shallow.of_subset (m.grown reached.sound.steady).subset_notes
  obtain ⟨line, lined⟩ := line before
  exact ⟨line.move runs m compiled ordered ordered' loyal undisturbed forthcoming (shallow.synchronous smooth'),
    lined.move line reached compiled declares ordered sturdy (before.synchronous smooth) m⟩

namespace Punctual

variable (punctual : Punctual plan run entries w) (compiled : plan.tree.Compiled) (declares : plan.tree.Declares)
include punctual compiled declares

theorem regular : ∃ aim, Regular plan aim run w := by
  obtain ⟨u, v, launches, lived⟩ := punctual.lived
  obtain ⟨before, new, known⟩ := launches.begins
  clear punctual
  have m : Move plan u v := .stepped launches.started
  induction lived with
  | refl => exact (m.launch new known).regular before m new known compiled
  | tail _ last ih =>
    obtain ⟨aim, regular⟩ := ih
    obtain ⟨sparing, undisturbed, dutiful⟩ := last
    exact ⟨_, regular.move compiled declares sparing.move undisturbed dutiful⟩

/-- No node of a punctual run has failed, and no action owes anything to it. -/
theorem execution : Execution plan run entries w := by
  obtain ⟨u, v, launches, lived⟩ := punctual.lived
  obtain ⟨aim, regular⟩ := punctual.regular compiled declares
  obtain ⟨unbegun, unfailed, -, -⟩ := regular.smooth
  refine ⟨⟨u, v, launches, lived.lift id fun _ _ last => ⟨last.1, last.2.1⟩⟩, punctual.done, unfailed,
    fun n owes => ?_⟩
  cases owes with
  | inside _ _ _ began => exact unbegun _ _ began
  | outside _ _ began _ => exact unbegun _ _ began
  | unreported _ stands _ _ _ => exact regular.forthcoming.unparked _ _ _ _ _ stands
  | lingering _ began _ => exact unbegun _ _ began

end Punctual

/-! ### The order of the walk -/

/-- A run that is shallow completes nothing in groups but those in its root list. -/
theorem Shallow.only_root (shallow : Shallow plan run w) (reached : Reachable plan w) (compiled : plan.tree.Compiled)
    (declares : plan.tree.Declares) (branch : plan.tree.BranchAt place list) (group : .nested others ∈ list)
    (within : n ∈ nodesOf list) (completed : (run, .completed n.head r payload) ∈ w.notes) :
    list = plan.tree.branches := by
  have known : n ∈ plan.tree.nodes := branch.sublist.subset within
  have comes := (reached.stood_of_completed compiled known completed).comes compiled
  have behind {o : Node} {key : Key} {inner others : List Entry} (placed : plan.tree.Places o)
      (route : o.route? key = some (key, .list inner)) (group : .nested others ∈ inner)
      (within : n ∈ nodesOf inner) : False := by
    have known' := placed.sublist.subset List.mem_cons_self
    obtain ⟨r', payload', inner', above, selects⟩ :=
      comes.owner compiled declares known' (mem_routes route) within
    have ⟨_, _, _, route'⟩ := selects
    obtain ⟨-, same⟩ := Prod.mk.inj (Option.some.inj ((Node.route?_declared route').symm.trans route))
    obtain rfl := Branch.list.inj same
    obtain ⟨o', other⟩ := shallow.taken o known' r' payload' key _ above selects _ group
    cases other
  induction branch generalizing others with
  | root => rfl
  | @nested place entries outer inner i k branch there member ih =>
    have around : n ∈ nodesOf outer := by
      have inside := (nodes_sublist member).subset
      rw [Entry.nodes] at inside
      exact inside within
    have above : n ∈ nodesOf entries := by
      have inside := (nodes_sublist there).subset
      rw [Entry.nodes] at inside
      exact inside around
    obtain rfl := ih (List.mem_of_getElem? there) above
    obtain ⟨o, other⟩ := shallow.members outer (List.mem_of_getElem? there) _ (List.mem_of_getElem? member)
    cases other
  | single branch entry route _ => exact (behind ⟨_, _, _, branch, .inl entry⟩ route group within).elim
  | grouped branch there member route _ =>
    exact (behind ⟨_, _, _, branch, .inr ⟨_, _, there, member⟩⟩ route group within).elim

/-- Of two members of a group, in which nodes of a shallow run have completed, one stands in the root list before
the other. -/
theorem Shallow.foregoes (shallow : Shallow plan run w) (reached : Reachable plan w) (compiled : plan.tree.Compiled)
    (declares : plan.tree.Declares) (beside : plan.tree.Beside n m)
    (completed : (run, .completed n.head r payload) ∈ w.notes) :
    Foregoes plan.tree n m ∨ Foregoes plan.tree m n := by
  obtain ⟨place, list, members, k, i, j, x, y, branch, found, apart, first, second, within, within'⟩ := beside
  have group := List.mem_of_getElem? found
  have inside : n ∈ nodesOf list := by
    have outer := (nodes_sublist found).subset
    rw [Entry.nodes] at outer
    exact outer ((nodes_sublist first).subset within)
  obtain rfl := shallow.only_root reached compiled declares branch group inside completed
  rcases Nat.lt_or_gt_of_ne apart with less | more
  · exact .inl ⟨group, less, first, second, within, within'⟩
  · exact .inr ⟨group, more, second, first, within', within⟩

namespace Punctual

variable (punctual : Punctual plan run entries w) {graph : Item} (compiled : Graph.compile graph = .ok plan.tree)
  (declares : plan.tree.Declares) (shallow : Shallow plan run w)
include punctual compiled declares shallow

theorem completed_in_order (split : w.notes = later ++ (run, .completed m.head r' payload') :: earlier)
    (known : n ∈ plan.tree.nodes) (known' : m ∈ plan.tree.nodes)
    (before : (run, .completed n.head r payload) ∈ earlier) : n.slot < m.slot := by
  have tree := compiled_of_compile compiled
  obtain ⟨aim, regular⟩ := punctual.regular tree declares
  have reached := regular.runs.reachable
  obtain ⟨-, lined⟩ := regular.line shallow
  have completed : (run, .completed n.head r payload) ∈ w.notes := split ▸ by simp [before]
  have completed' : (run, .completed m.head r' payload') ∈ w.notes := split ▸ by simp
  have once (again : (run, .completed m.head r' payload') ∈ earlier) : False := by
    have split' : w.notes = (later ++ [(run, .completed m.head r' payload')]) ++ earlier := by simp [split]
    exact reached.once tree .complete split' (List.mem_append_right _ (List.mem_singleton_self _)) again rfl rfl rfl
  cases arranged declares known known' with
  | same same =>
    subst same
    obtain ⟨rfl, rfl⟩ := reached.completed_once tree completed completed'
    exact (once before).elim
  | ahead ahead => exact slot_lt_of_sublist compiled (ahead.sublist ((mem_nodes_iff declares).mp known))
  | behind behind =>
    obtain ⟨more, rest, rfl⟩ := List.append_of_mem before
    have split' : w.notes = (later ++ (run, .completed m.head r' payload') :: more) ++
        (run, .completed n.head r payload) :: rest := by simp [split]
    have first := completed_ahead reached tree declares known' completed' known behind split'
    exact (once (List.mem_append_right _ (List.mem_cons_of_mem _ first))).elim
  | beside beside =>
    rcases shallow.foregoes reached tree declares beside completed with foregoes | foregoes
    · exact slot_lt_of_sublist compiled foregoes.sublist
    · exact (lined _ _ _ _ _ _ _ _ foregoes split before).elim
  | exclusive exclusive =>
    exact (not_exclusive reached tree declares known completed known' completed' exclusive).elim

end Punctual

/-! ### What is merged in order -/

def merger? (run : RunId) : Note → Option (Nat × Entries)
  | (other, .completed h _ payload) => if other = run then some (h.slot, payload) else none
  | _ => none

/-- The payloads of a run with the slots of their nodes, in the order in which these complete. -/
def mergers (run : RunId) (notes : List Note) : List (Nat × Entries) := (notes.filterMap (merger? run)).reverse

theorem payloads_eq_mergers {notes : List Note} : payloads run notes = (mergers run notes).map (·.2) := by
  rw [payloads, mergers, List.map_reverse, List.map_filterMap]
  congr 2
  funext x
  obtain ⟨other, x⟩ := x
  cases x with
  | completed h r payload => by_cases own : other = run <;> simp [payload?, merger?, own]
  | _ => rfl

theorem merger?_eq_some {x : Note} {slot : Nat} (found : merger? run x = some (slot, payload)) :
    ∃ h r, h.slot = slot ∧ x = (run, .completed h r payload) := by
  obtain ⟨other, x⟩ := x
  cases x with
  | completed h r _ =>
    rw [merger?] at found
    split at found
    · rename_i own
      obtain ⟨rfl, rfl⟩ := Prod.mk.inj (Option.some.inj found)
      exact ⟨h, r, rfl, by rw [own]⟩
    · cases found
  | _ => cases found

theorem mem_mergers {notes : List Note} {slot : Nat} :
    (slot, payload) ∈ mergers run notes ↔ ∃ h r, h.slot = slot ∧ (run, .completed h r payload) ∈ notes := by
  rw [mergers, List.mem_reverse, List.mem_filterMap]
  constructor
  · rintro ⟨x, member, found⟩
    obtain ⟨h, r, own, rfl⟩ := merger?_eq_some found
    exact ⟨h, r, own, member⟩
  · rintro ⟨h, r, rfl, member⟩
    exact ⟨_, member, if_pos rfl⟩

/-- A punctual run merges what its nodes report in the order of the walk. -/
theorem Punctual.mergers_sorted (punctual : Punctual plan run entries w) {graph : Item}
    (compiled : Graph.compile graph = .ok plan.tree) (declares : plan.tree.Declares) (shallow : Shallow plan run w) :
    (mergers run w.notes).Pairwise (·.1 < ·.1) := by
  have tree := compiled_of_compile compiled
  obtain ⟨aim, regular⟩ := punctual.regular tree declares
  have reached := regular.runs.reachable
  rw [mergers, List.pairwise_reverse, List.pairwise_filterMap]
  -- along the notes, from the last one back
  suffices ∀ earlier later, w.notes = later ++ earlier → earlier.Pairwise fun x y => ∀ b, merger? run x = some b →
      ∀ b', merger? run y = some b' → b'.1 < b.1 from this w.notes [] rfl
  intro earlier
  induction earlier with
  | nil => exact fun _ _ => .nil
  | cons x rest ih =>
    intro later split
    refine .cons (fun y member b found b' found' => ?_) (ih (later ++ [x]) (by simp [split]))
    obtain ⟨h, r, own, rfl⟩ := merger?_eq_some found
    obtain ⟨h', r', own', rfl⟩ := merger?_eq_some found'
    have completed : (run, .completed h r b.2) ∈ w.notes := split ▸ by simp
    have completed' : (run, .completed h' r' b'.2) ∈ w.notes := split ▸ by simp [member]
    obtain ⟨n, rfl, stood⟩ := reached.completed_stood tree completed
    obtain ⟨m, rfl, stood'⟩ := reached.completed_stood tree completed'
    rw [← own, ← own']
    exact punctual.completed_in_order compiled declares shallow split stood'.mem stood.mem member

end Conductor.World
