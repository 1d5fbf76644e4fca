import Conductor.Proofs.Failures
import Conductor.Proofs.Phases

/-!
# Selected branches

A run that has the nodes for itself leaves on them what it does: a node has executed just if the run has
completed it, and then shows the output that was reported. So the nodes that have executed are those on
the branches that were selected, and when the run has resolved they are all of these.
-/

namespace Conductor

/-- Whether the mapping that declares the outputs of a node has each key once, as mappings do. -/
def Tree.Declares (t : Tree) : Prop :=
  ∀ n ∈ t.nodes, n.outputNames.Pairwise fun k l => ¬ k.same l

namespace World

variable {plan : Plan} {w w' : World} {run other : RunId} {n m : Node} {h : Head} {args payload : Entries}
  {r : Result} {p q : Path} {e : Entry} {k : Key} {slot ms : Nat} {s : NodeState}

/-! ### What nodes show -/

/-- A relation between what is noted of a run and the state of a node that each thing keeps which can happen
to the node. -/
structure Traceable (plan : Plan) (run : RunId) (P : List Note → Nat → NodeState → Prop) : Prop where
  fresh : ∀ notes slot, (∀ (stage : Stage) x h, (run, x) ∈ notes → stage.reached? x ≠ some h) → P notes slot {}
  /-- What happens to other nodes leaves the node as it is. -/
  elsewhere : ∀ notes x slot s, P notes slot s → (∀ (stage : Stage) h, stage.reached? x = some h → h.slot ≠ slot) →
    P ((run, x) :: notes) slot s
  called : ∀ notes h args s, P notes h.slot s → (∀ h' args', h'.slot = h.slot → (run, .called h' args') ∉ notes) →
    P ((run, .called h args) :: notes) h.slot
      { s with executing := true, args := if plan.settings.snapshotArgs then args else [] }
  completed : ∀ notes h r payload ms s, P notes h.slot s →
    (∀ h' r' payload', h'.slot = h.slot → (run, .completed h' r' payload') ∉ notes) →
    (∃ args, (run, .called h args) ∈ notes) →
    P ((run, .completed h r payload) :: notes) h.slot { s with
      executing := false, executed := true, output := r.payload, outputPath := r.path, duration := ms }

def Traced (P : List Note → Nat → NodeState → Prop) (w : World) : Prop :=
  ∀ slot s, w.nodes[slot]? = some s → P w.course slot s

section Traced

variable {P : List Note → Nat → NodeState → Prop}

theorem Traced.congr (traced : Traced P w) (nodes : w'.nodes = w.nodes) (course : w'.course = w.course) :
    Traced P w' := by
  intro slot s found
  rw [nodes] at found
  rw [course]
  exact traced slot s found

theorem Traced.begin (traceable : Traceable plan run P) (traced : Traced P w) (marked : Marked plan run n w w')
    (fresh : ∀ h args, h.slot = n.slot → (run, .called h args) ∉ w.course) :
    Traced P (w'.note run (.called n.head (w'.heap.dict (w'.argsOf run)))) := by
  intro slot s found
  have here : w'.nodes[slot]? = some s := found
  rw [marked.nodes, Array.getElem?_modify] at here
  rw [course_called, marked.course]
  split at here
  · rename_i own
    subst own
    obtain ⟨s', before, rfl⟩ := Option.map_eq_some_iff.mp here
    rw [← marked.heap, ← marked.args]
    exact traceable.called w.course n.head _ s' (traced n.slot s' before) fresh
  · rename_i other
    refine traceable.elsewhere _ _ _ _ (traced slot s here) fun stage h reached => ?_
    cases stage <;> cases reached
    exact fun same => other same

theorem Traced.complete (traceable : Traceable plan run P) (traced : Traced P w) (merged : Merged run n r w w')
    (fresh : ∀ h r payload, h.slot = n.slot → (run, .completed h r payload) ∉ w.course)
    (called : ∃ args, (run, .called n.head args) ∈ w.course) : Traced P w' := by
  intro slot s found
  obtain ⟨ms, nodes⟩ := merged.nodes
  rw [nodes, Array.getElem?_modify] at found
  rw [merged.course]
  split at found
  · rename_i own
    subst own
    obtain ⟨s', before, rfl⟩ := Option.map_eq_some_iff.mp found
    exact traceable.completed w.course n.head r _ ms s' (traced n.slot s' before) fresh called
  · rename_i other
    refine traceable.elsewhere _ _ _ _ (traced slot s found) fun stage h reached => ?_
    cases stage <;> cases reached
    exact fun same => other same

end Traced

/-- Whether the state of the node with a slot shows what some notes tell of a run: that it has completed,
with which output, and with which args it was called. -/
structure Shown (plan : Plan) (run : RunId) (notes : List Note) (slot : Nat) (s : NodeState) : Prop where
  executed : s.executed → ∃ h r payload, h.slot = slot ∧ (run, .completed h r payload) ∈ notes
  completed : ∀ h r payload, h.slot = slot → (run, .completed h r payload) ∈ notes →
    s.executed ∧ s.outputPath = r.path
  called : plan.settings.snapshotArgs → ∀ h args, h.slot = slot → (run, .called h args) ∈ notes →
    s.args = args

def Shows (plan : Plan) (w : World) (run : RunId) : Prop := Traced (Shown plan run) w

theorem shown_traceable : Traceable plan run (Shown plan run) where
  fresh notes slot none := by
    refine ⟨fun executed => (nomatch executed), fun h r payload _ there => ?_, fun _ h args _ there => ?_⟩
    · exact (none .complete _ h there rfl).elim
    · exact (none .call _ h there rfl).elim
  elsewhere notes x slot s shown other := by
    refine ⟨fun executed => ?_, fun h r payload own there => ?_, fun snapshot h args own there => ?_⟩
    · obtain ⟨h, r, payload, own, completed⟩ := shown.executed executed
      exact ⟨h, r, payload, own, List.mem_cons_of_mem _ completed⟩
    · rcases List.mem_cons.mp there with now | earlier
      · obtain rfl := (Prod.mk.inj now).2
        exact absurd own (other .complete h rfl)
      · exact shown.completed h r payload own earlier
    · rcases List.mem_cons.mp there with now | earlier
      · obtain rfl := (Prod.mk.inj now).2
        exact absurd own (other .call h rfl)
      · exact shown.called snapshot h args own earlier
  called notes h args s shown fresh := by
    refine ⟨fun executed => ?_, fun h' r payload own there => ?_, fun snapshot h' args' own there => ?_⟩
    · obtain ⟨h, r, payload, own, completed⟩ := shown.executed executed
      exact ⟨h, r, payload, own, List.mem_cons_of_mem _ completed⟩
    · exact shown.completed h' r payload own ((List.mem_cons.mp there).resolve_left (by simp))
    · rcases List.mem_cons.mp there with now | earlier
      · obtain ⟨-, rfl⟩ := Happening.called.inj (Prod.mk.inj now).2
        exact if_pos snapshot
      · exact absurd earlier (fresh h' args' own)
  completed notes h r payload ms s shown fresh _ := by
    refine ⟨fun _ => ⟨h, r, payload, rfl, List.mem_cons_self⟩, fun h' r' payload' own there => ?_,
      fun snapshot h' args own there => ?_⟩
    · rcases List.mem_cons.mp there with now | earlier
      · obtain ⟨-, rfl, -⟩ := Happening.completed.inj (Prod.mk.inj now).2
        exact ⟨rfl, rfl⟩
      · exact absurd earlier (fresh h' r' payload' own)
    · exact shown.called snapshot h' args own ((List.mem_cons.mp there).resolve_left (by simp))

def Once (run : RunId) (notes : List Note) : Prop :=
  ∀ later earlier, notes = later ++ earlier → ∀ (stage : Stage) x y h h', (run, x) ∈ later →
    (run, y) ∈ earlier → stage.reached? x = some h → stage.reached? y = some h' → h.slot ≠ h'.slot

theorem Reachable.course_once (reached : Reachable plan w) (compiled : plan.tree.Compiled) :
    Once run w.course := by
  intro later earlier split stage x y h h' new old here there same
  obtain ⟨later', earlier', split', rfl, rfl⟩ := List.filter_eq_append_iff.mp split
  exact reached.once compiled stage split' (List.mem_of_mem_filter new) (List.mem_of_mem_filter old) here there
    same

theorem Prelude.course (prelude : Prelude plan w w') : ∃ new, w'.course = new ++ w.course := by
  cases prelude with
  | aside aside => exact ⟨[], aside.course⟩
  | @called w₁ w₂ other n aside begun =>
    subst begun
    exact ⟨[_], by rw [course_called, (beginNode_marked plan other n).course, aside.course]; rfl⟩

theorem Sequel.course (sequel : Sequel plan w w') : ∃ new, w'.course = new ++ w.course := by
  cases sequel with
  | aside aside => exact ⟨[], aside.course⟩
  | merged other n r started first done rest =>
    exact ⟨[_], by rw [rest.course, (complete_merged done).course, first.course]; rfl⟩

theorem Reachable.completed_called (reached : Reachable plan w) (compiled : plan.tree.Compiled)
    (completed : (run, .completed h r payload) ∈ w.course) : ∃ args, (run, .called h args) ∈ w.course := by
  suffices ∃ args, (run, .called h args) ∈ w.notes by
    obtain ⟨args, called⟩ := this
    exact ⟨args, List.mem_filter.mpr ⟨called, rfl⟩⟩
  refine reached.forall_notes
    (P := fun w x => ∀ h r payload, x.2 = .completed h r payload → ∃ args, (x.1, .called h args) ∈ w.notes)
    (fun before m x earlier h r payload same => ?_) (fun before m noting x new h r payload same => ?_) _
    (List.mem_of_mem_filter completed) _ _ _ rfl
  · obtain ⟨args, called⟩ := earlier h r payload same
    exact ⟨args, (m.grown before.sound.steady).subset_notes called⟩
  · obtain ⟨run, x⟩ := x
    obtain rfl : x = _ := same
    obtain ⟨aim, ordered⟩ := (Reachable.move before m).ordered compiled
    have focused := ordered.focus
    cases noting.happens new with
    | completed call _ _ _ _ there =>
      rw [there] at focused
      obtain ⟨a, -, fits⟩ := focused
      cases fits with
      | played own => cases own
      | following tended _ _ _ => exact tended.dates.called

/-- A step of a run that is alone leaves on the nodes what the run does. -/
theorem Phases.traced {P : List Note → Nat → NodeState → Prop} (traceable : Traceable plan run P)
    (phases : Phases plan w w') (traced : Traced P w) (once : Once run w'.course)
    (called : ∀ h r payload, (run, .completed h r payload) ∈ w'.course → ∃ args, (run, .called h args) ∈ w'.course)
    (mine : ∀ new, w'.course = new ++ w.course → ∀ x ∈ new, x.1 = run) : Traced P w' := by
  obtain ⟨prelude, played, sequel⟩ := phases
  have code : (userCode plan w).2.course = (userCode plan w).1.course := course_congr played.journal
  -- what the sequel adds comes on top of what the prelude has noted
  obtain ⟨more, added⟩ := sequel.course
  rw [code] at added
  obtain ⟨first, before⟩ := prelude.course
  have begun : Traced P (userCode plan w).1 := by
    generalize (userCode plan w).1 = w₁ at prelude added
    cases prelude with
    | aside aside => exact traced.congr aside.nodes aside.course
    | @called w₁ w₂ other n aside begun =>
      subst begun
      have marked := beginNode_marked (w := w₁) plan other n
      have split : w'.course = (more ++ [(other, .called n.head ((w₁.beginNode plan other n).heap.dict
          ((w₁.beginNode plan other n).argsOf other)))]) ++ w.course := by
        rw [added, course_called, marked.course, aside.course, List.append_assoc]
        rfl
      obtain rfl : other = run := mine _ split _ (List.mem_append_right _ (List.mem_singleton_self _))
      refine (traced.congr aside.nodes aside.course).begin traceable marked fun h args same old => ?_
      refine once _ _ split .call _ _ _ _ (List.mem_append_right _ (List.mem_singleton_self _))
        (aside.course ▸ old) rfl rfl same.symm
  have played' : Traced P (userCode plan w).2 := begun.congr played.nodes code
  generalize (userCode plan w).2 = w₂ at sequel code played'
  cases sequel with
  | aside aside => exact played'.congr aside.nodes aside.course
  | @merged w₃ w₄ _ other n r started again done rest =>
    have merged := complete_merged done
    have split : w'.course = [(other, .completed n.head r ((w₃.heap.mapping? r.payload).getD []))] ++ w₂.course := by
      rw [rest.course, merged.course, again.course]
      rfl
    have whole := split
    rw [code, before, ← List.append_assoc] at whole
    obtain rfl : other = run :=
      mine _ whole _ (List.mem_append_left _ (List.mem_singleton_self _))
    have earlier : ∃ args, (other, .called n.head args) ∈ w₃.course := by
      obtain ⟨args, there⟩ := called n.head r _ (by rw [split]; exact List.mem_cons_self)
      rw [split] at there
      exact ⟨args, again.course ▸ (List.mem_cons.mp there).resolve_left (by simp)⟩
    refine Traced.congr (Traced.complete traceable (played'.congr again.nodes again.course) merged
      (fun h r' payload same old => ?_) earlier) rest.nodes rest.course
    exact once _ _ split .complete _ _ _ _ (List.mem_singleton_self _) (again.course ▸ old) rfl rfl same.symm

/-! ### A run that is alone -/

/-- A move by which no run starts, and which clears no nodes. -/
structure Calm (plan : Plan) (w w' : World) : Prop where
  move : Move plan w w'
  records : w'.records.size = w.records.size
  kept : w'.nodes = w.nodes ∨ w.step plan = some w' ∧ w.focus.starts = false

/-- Whether a run has the nodes for itself: all runs before it have settled, there are none after it, and
the nodes show what it has done. -/
structure Alone (plan : Plan) (w : World) (run : RunId) : Prop where
  last : w.records.size = run + 1
  others : ∀ other < run, w.isSettled other
  shows : Shows plan w run
  size : w.nodes.size = plan.tree.nodeCount

theorem Alone.mine (alone : Alone plan w run) (reached : Reachable plan w) (m : Move plan w w')
    (last : w'.records.size = w.records.size) {new : List Note} (added : w'.course = new ++ w.course) :
    ∀ x ∈ new, x.1 = run := by
  rintro ⟨other, x⟩ there
  have here : (other, x) ∈ w'.course := added ▸ List.mem_append_left _ there
  obtain ⟨noted, counts⟩ := List.mem_filter.mp here
  have bound : other < w'.records.size := by
    have reached' : Reachable plan w' := .move reached m
    cases x with
    | called h args => exact reached'.recorded .call noted rfl
    | completed h r payload => exact reached'.recorded .complete noted rfl
    | _ => cases counts
  rw [last, alone.last] at bound
  rcases Nat.lt_or_eq_of_le (Nat.le_of_lt_succ bound) with earlier | same
  · -- the other run has settled, so that nothing counts any more that happens to it
    obtain ⟨notes, split, -, aftermath⟩ := m.inert reached.sound.steady (alone.others other earlier)
    have filtered : w'.course = notes.filter (fun x => x.2.counts) ++ w.course := by
      rw [course, split, List.filter_append]
      rfl
    have same := List.append_cancel_right (filtered.symm.trans added)
    have late := aftermath x (List.mem_of_mem_filter (same ▸ there))
    cases x <;> simp_all [Happening.counts, Happening.isAftermath]
  · exact same

theorem Calm.traced {P : List Note → Nat → NodeState → Prop} (traceable : Traceable plan run P)
    (calm : Calm plan w w') (alone : Alone plan w run) (reached : Reachable plan w)
    (compiled : plan.tree.Compiled) (traced : Traced P w) : Traced P w' := by
  have reached' : Reachable plan w' := .move reached calm.move
  have phased (stepped : w.step plan = some w') (other : w.focus.starts = false) : Traced P w' :=
    (step_phases stepped other).traced traceable traced (reached'.course_once compiled)
      (fun h r payload completed => reached'.completed_called compiled completed)
      fun new added => alone.mine reached calm.move calm.records added
  rcases calm.kept with nodes | ⟨stepped, other⟩
  · rcases calm.move.counted with ⟨stepped, other⟩ | course
    · exact phased stepped other
    · exact traced.congr nodes course
  · exact phased stepped other

theorem Alone.calm (alone : Alone plan w run) (reached : Reachable plan w) (compiled : plan.tree.Compiled)
    (calm : Calm plan w w') : Alone plan w' run where
  last := calm.records.trans alone.last
  others other earlier := calm.move.settled reached.sound.steady (alone.others other earlier)
  shows := calm.traced shown_traceable alone reached compiled alone.shows
  size := by
    rcases calm.kept with nodes | ⟨stepped, other⟩
    · rw [nodes, alone.size]
    · exact (step_phases stepped other).size.trans alone.size

/-- A run that is started while no other one is running finds all nodes as new. -/
theorem traced_start {P : List Note → Nat → NodeState → Prop} (traceable : Traceable plan w.records.size P)
    {t : FutureId} {stack : List Frame} {given : Value} (reached : Reachable plan w)
    (starting : w.focus = .enter t (.runner given) stack) (started : w.step plan = some w')
    (new : w'.records.size = w.records.size + 1) :
    Traced P w' ∧ w'.nodes.size = w.nodes.size := by
  have same : w' = w.resetNodes.enterRunner given t stack := by
    unfold World.step at started
    rw [starting] at started
    exact (Option.some.inj started).symm
  cases given' : w.heap.entriesOf given with
  | error f =>
    have aside : Aside w.resetNodes w' := same ▸ enterRunner_refused given'
    have sizes : w'.records.size = w.records.size := by
      simpa [resetNodes] using congrArg Array.size aside.args
    omega
  | ok entries =>
    obtain ⟨-, -, -, nodes, course⟩ : Begun w.resetNodes entries w' := same ▸ enterRunner_begun given'
    refine ⟨fun slot s found => ?_, by rw [nodes, resetNodes, Array.size_map]⟩
    rw [nodes, resetNodes, Array.getElem?_map] at found
    obtain ⟨-, -, rfl⟩ := Option.map_eq_some_iff.mp found
    rw [course]
    refine traceable.fresh _ _ fun stage x h there here => ?_
    exact absurd (reached.recorded stage (List.mem_of_mem_filter there) here) (Nat.lt_irrefl _)

theorem Alone.start {t : FutureId} {stack : List Frame} {given : Value} (reached : Reachable plan w)
    (sized : w.nodes.size = plan.tree.nodeCount) (starting : w.focus = .enter t (.runner given) stack)
    (free : ∀ other < w.records.size, w.isSettled other) (started : w.step plan = some w')
    (new : w'.records.size = w.records.size + 1) : Alone plan w' w.records.size := by
  obtain ⟨shows, size⟩ := traced_start shown_traceable reached starting started new
  have m : Move plan w w' := .stepped started
  exact ⟨new, fun other earlier => m.settled reached.sound.steady (free other earlier), shows, size.trans sized⟩

/-! ### Hops -/

/-- Whether the owner of an output, which a path leads to, has executed and shows that output. What shows
no output shows that of no key, not even of one that stands for none. -/
def Took (plan : Plan) (w : World) (p : Path) (k : Key) : Prop :=
  ∃ n ∈ plan.tree.nodes, n.path = p ∧ (w.nodeState n).executed ∧ (w.nodeState n).outputPath ≠ .atom .null ∧
    ∃ key, Template.keyOf (w.nodeState n).outputPath = .ok key ∧ k.same key

/-- Whether all outputs on the path of a node were taken. -/
def Chosen (plan : Plan) (w : World) (n : Node) : Prop :=
  ∀ p k, p ++ [.output k] <+: n.path → Took plan w p k

/-- Every output on the way to an entry was selected by the node that owns it. -/
theorem Comes.hops (comes : Comes plan w run q e) (hop : p ++ [.output k] <+: q) :
    ∃ (n : Node) (r : Result) (payload : Entries) (inner : List Entry), n.path = p ∧
      Comes plan w run n.path n.entry ∧ (run, .completed n.head r payload) ∈ w.notes ∧
      n.Selects r k inner := by
  have other {place : Path} {i : Nat} (same : p ++ [.output k] = place ++ [.entry i]) : False := by
    cases (List.cons.inj (List.append_inj' same rfl).2).1
  induction comes with
  | @root before _ _ _ _ =>
    have whole : p ++ [.output k] <+: [] ++ [.entry before.length] := hop
    rcases List.prefix_concat_iff.mp whole with same | none
    · exact (other same).elim
    · simp at none
  | member _ _ _ ih =>
    rcases List.prefix_concat_iff.mp hop with same | within
    · exact (other same).elim
    · exact ih within
  | inner _ _ _ ih =>
    rcases List.prefix_concat_iff.mp hop with same | within
    · exact (other same).elim
    · exact ih within
  | @selected n r payload declared before rest e outer completed selects _ ih =>
    rcases List.prefix_concat_iff.mp hop with same | within
    · exact (other same).elim
    · rcases List.prefix_concat_iff.mp within with same | earlier
      · obtain ⟨rfl, last⟩ := List.append_inj' same rfl
        obtain rfl := Hop.output.inj (List.cons.inj last).1
        exact ⟨n, r, payload, _, rfl, outer, completed, selects⟩
      · exact ih earlier

theorem Reachable.completed_stood (reached : Reachable plan w) (compiled : plan.tree.Compiled)
    (completed : (run, .completed h r payload) ∈ w.notes) : ∃ n, n.head = h ∧ Stood plan w run n := by
  refine reached.forall_notes
    (P := fun w x => ∀ h r payload, x.2 = .completed h r payload → ∃ n, n.head = h ∧ Stood plan w x.1 n)
    (fun before m x earlier h r payload same => ?_) (fun before m noting x new h r payload same => ?_) _ completed
    _ _ _ rfl
  · obtain ⟨n, own, stood⟩ := earlier h r payload same
    exact ⟨n, own, stood.later (m.later before compiled)⟩
  · obtain ⟨run, x⟩ := x
    obtain rfl : x = _ := same
    obtain ⟨aim, ordered⟩ := (Reachable.move before m).ordered compiled
    have focused := ordered.focus
    cases noting.happens new with
    | completed call _ _ _ _ there =>
      rw [there] at focused
      obtain ⟨a, opens, -⟩ := focused
      cases opens with
      | played own => cases own
      | follow _ stood _ => exact ⟨call.node, rfl, stood⟩

theorem Shows.of_completed (shows : Shows plan w run) (here : w.nodes[n.slot]? = some s)
    (completed : (run, .completed n.head r payload) ∈ w.notes) :
    (w.nodeState n).executed ∧ (w.nodeState n).outputPath = r.path := by
  have shown := (shows _ _ here).completed n.head r payload rfl (List.mem_filter.mpr ⟨completed, rfl⟩)
  rw [nodeState, here]
  exact shown

theorem Shows.comes (shows : Shows plan w run) (reached : Reachable plan w) (compiled : plan.tree.Compiled)
    (known : n ∈ plan.tree.nodes) (executed : (w.nodeState n).executed) : Comes plan w run n.path n.entry := by
  cases here : w.nodes[n.slot]? with
  | none =>
    rw [nodeState, here] at executed
    cases executed
  | some s =>
    rw [nodeState, here] at executed
    obtain ⟨h, r, payload, own, completed⟩ := (shows _ _ here).executed executed
    obtain ⟨m, rfl, stood⟩ := reached.completed_stood compiled (List.mem_of_mem_filter completed)
    obtain rfl := compiled.eq_of_slot stood.mem known own
    exact stood.comes compiled

theorem Shows.chosen (shows : Shows plan w run) (reached : Reachable plan w) (compiled : plan.tree.Compiled)
    (stated : ∀ m ∈ plan.tree.nodes, ∃ s, w.nodes[m.slot]? = some s) (known : n ∈ plan.tree.nodes)
    (executed : (w.nodeState n).executed) : Chosen plan w n := by
  intro p k hop
  obtain ⟨owner, r, payload, inner, rfl, comes, completed, some, key, reported, route⟩ :=
    (shows.comes reached compiled known executed).hops hop
  have mem : owner ∈ plan.tree.nodes := comes.entryAt.places.sublist.subset List.mem_cons_self
  obtain ⟨s, here⟩ := stated owner mem
  obtain ⟨executed', path⟩ := shows.of_completed here completed
  refine ⟨owner, mem, rfl, executed', ?_, key, ?_, ?_⟩
  · rwa [path]
  · rw [path, reported]
  · simpa using List.find?_some route

theorem find?_route {routes : List (Key × Branch)} {key : Key} {b : Branch}
    (distinct : (routes.map (·.1)).Pairwise fun k l => ¬ k.same l) (member : (k, b) ∈ routes)
    (same : k.same key) : routes.find? (fun route => route.1.same key) = some (k, b) := by
  induction routes with
  | nil => cases member
  | cons route rest ih =>
    obtain ⟨others, distinct'⟩ := List.pairwise_cons.mp distinct
    rcases List.mem_cons.mp member with rfl | later
    · exact List.find?_cons_of_pos same
    · have differs : ¬ route.1.same key := fun same' => others k (List.mem_map_of_mem later)
        (Key.same_iff.mpr ((Key.same_iff.mp same').trans (Key.same_iff.mp same).symm))
      simpa [differs] using ih distinct' later

theorem branch_of_mem {routes : List (Key × Branch)} (within : n ∈ nodesOfRoutes routes) :
    ∃ k b, (k, b) ∈ routes ∧ n ∈ b.nodes := by
  induction routes with
  | nil => cases within
  | cons route rest ih =>
    rcases List.mem_append.mp within with here | later
    · exact ⟨_, _, List.mem_cons_self, here⟩
    · obtain ⟨k, b, member, inside⟩ := ih later
      exact ⟨k, b, List.mem_cons_of_mem _ member, inside⟩

/-- A node below another one, to which all outputs on its path lead, is one that the other one has
selected. -/
theorem Chosen.selected (chosen : Chosen plan w n) (shows : Shows plan w run) (reached : Reachable plan w)
    (compiled : plan.tree.Compiled) (declares : plan.tree.Declares)
    (stated : ∀ m ∈ plan.tree.nodes, ∃ s, w.nodes[m.slot]? = some s) (placed : plan.tree.Places m)
    (completed : (run, .completed m.head r payload) ∈ w.notes) (below : n ∈ m.below) :
    ∃ declared inner, m.Selects r declared inner ∧ n ∈ nodesOf inner := by
  have known := placed.sublist.subset List.mem_cons_self
  obtain ⟨k, b, member, within⟩ := branch_of_mem below
  cases b with
  | raw _ => cases within
  | list inner =>
    have distinct := declares m known
    have declared := find?_route distinct member (Key.same_iff.mpr rfl)
    obtain ⟨i, e, found, inside⟩ := Tree.entry_of_mem within
    have along := compiled.within _ _ _ _ _ (placed.branchAt declared) found inside
    obtain ⟨owner, mem, path, executed, some, key, reported, same⟩ :=
      chosen m.path k ((List.prefix_append _ _).trans along)
    -- only that node has its path
    have comes := shows.comes reached compiled mem executed
    rw [path] at comes
    obtain rfl := Tree.entry_injective (compiled.entry_unique comes.entryAt (placed.entryAt compiled))
    obtain ⟨s, here⟩ := stated owner known
    rw [(shows.of_completed here completed).2] at some reported
    exact ⟨k, inner, ⟨some, key, reported, find?_route distinct member same⟩, within⟩

/-- Within an entry that is done all nodes have executed to which all outputs on their paths lead. -/
theorem Done.executed (done : w.Done run e) (shows : Shows plan w run) (reached : Reachable plan w)
    (compiled : plan.tree.Compiled) (declares : plan.tree.Declares)
    (stated : ∀ m ∈ plan.tree.nodes, ∃ s, w.nodes[m.slot]? = some s) (found : plan.tree.EntryAt q e)
    (within : n ∈ e.nodes) (chosen : Chosen plan w n) : (w.nodeState n).executed := by
  have own {m : Node} {r : Result} (ran : w.Ran run m r) (placed : plan.tree.Places m) : (w.nodeState m).executed := by
    obtain ⟨payload, completed⟩ := ran.completed
    obtain ⟨s, here⟩ := stated m (placed.sublist.subset List.mem_cons_self)
    exact (shows.of_completed here completed).1
  induction done generalizing q with
  | plain m r ran null =>
    have placed := found.places
    rw [Tree.nodes_entry] at within
    rcases List.mem_cons.mp within with rfl | below
    · exact own ran placed
    · obtain ⟨payload, completed⟩ := ran.completed
      obtain ⟨_, _, selects, -⟩ := chosen.selected shows reached compiled declares stated placed completed below
      exact absurd null selects.1
  | branched m r ran selects _ ih =>
    have placed := found.places
    rw [Tree.nodes_entry] at within
    rcases List.mem_cons.mp within with rfl | below
    · exact own ran placed
    · obtain ⟨payload, completed⟩ := ran.completed
      obtain ⟨_, _, selects', inside⟩ := chosen.selected shows reached compiled declares stated placed completed below
      obtain ⟨rfl, rfl⟩ := selects.unique selects'
      obtain ⟨i, e, there, inside'⟩ := Tree.entry_of_mem inside
      obtain ⟨-, key, -, route⟩ := selects
      exact ih e (List.mem_of_getElem? there) (.listed (placed.branchAt route) there) inside'
  | nested all ih =>
    obtain ⟨i, e, there, inside⟩ := Tree.entry_of_mem within
    exact ih e (List.mem_of_getElem? there) (found.step there) inside

/-! ### Runs that are alone -/

theorem Alone.calms (calm : Relation.ReflTransGen (Calm plan) w w') (reached : Reachable plan w)
    (compiled : plan.tree.Compiled) (alone : Alone plan w run) : Reachable plan w' ∧ Alone plan w' run := by
  induction calm with
  | refl => exact ⟨reached, alone⟩
  | tail _ last ih => exact ⟨.move ih.1 last.move, ih.2.calm ih.1 compiled last⟩

/-- When a run has the runner for itself, a node has executed only if every output on its path was taken
by the node that owns it. Once the run has resolved, these are just the nodes that have executed. -/
theorem selected_branches_execute {graph : Item} (compiled : Graph.compile graph = .ok plan.tree)
    (declares : plan.tree.Declares) {u v : World} {t : FutureId} {given : Value} {stack : List Frame}
    (reached : Reachable plan u) (sized : u.nodes.size = plan.tree.nodeCount)
    (starting : u.focus = .enter t (.runner given) stack) (free : ∀ other < u.records.size, u.isSettled other)
    (started : u.step plan = some v) (new : v.records.size = u.records.size + 1)
    (calm : Relation.ReflTransGen (Calm plan) v w) (known : n ∈ plan.tree.nodes) :
    ((w.nodeState n).executed → Chosen plan w n) ∧
      ∀ ms, w.status u.records.size = .resolved ms → ((w.nodeState n).executed ↔ Chosen plan w n) := by
  have compiled' := Tree.compiled_of_compile compiled
  have alone := Alone.start reached sized starting free started new
  obtain ⟨reached', alone⟩ := Alone.calms calm (.move reached (.stepped started)) compiled' alone
  have stated (m : Node) (member : m ∈ plan.tree.nodes) : ∃ s, w.nodes[m.slot]? = some s := by
    have bound := Tree.slot_lt_of_compile compiled member
    rw [← alone.size] at bound
    exact ⟨_, Array.getElem?_eq_getElem bound⟩
  have only := alone.shows.chosen reached' compiled' stated known
  refine ⟨only, fun ms resolved => ⟨only, fun chosen => ?_⟩⟩
  cases reached'.done compiled' resolved with
  | nested all =>
    obtain ⟨i, e, found, within⟩ := Tree.entry_of_mem known
    exact (all e (List.mem_of_getElem? found)).executed alone.shows reached' compiled' declares stated
      (.listed .root found) within chosen

/-- A node that selects the first of its two outputs, which both lead to a node. -/
def routingItems : List Item :=
  let plain (token : Nat) (label : String) : Item := .leaf (.object token 0) (.function {
    label
    signature := [⟨"args", .standard, false⟩, ⟨"store", .standard, false⟩]
    steps := [] } {})
  [.leaf (.object 0 0) (.function {
      label := "a"
      signature := [⟨"args", .standard, false⟩, ⟨"store", .standard, false⟩, ⟨"completion", .standard, false⟩]
      steps := [.call [.text "x"]] } {}),
    .mapping (.object 1 0) false [
      (.atom (.text "x"), .list [plain 2 "b"]),
      (.atom (.text "y"), .list [plain 3 "c"])]]

def routing : Plan where
  tree := Graph.compileItems routingItems

def calmSteps (plan : Plan) : Nat → World → Option World
  | 0, w => some w
  | k + 1, w => do
    let w' ← w.step plan
    if w.focus.starts || w'.records.size != w.records.size then none else calmSteps plan k w'

theorem calm_of_calmSteps {k : Nat} (steps : calmSteps plan k w = some w') :
    Relation.ReflTransGen (Calm plan) w w' := by
  induction k generalizing w with
  | zero => exact Option.some.inj steps ▸ .refl
  | succ k ih =>
    obtain ⟨w₁, stepped, rest⟩ := Option.bind_eq_some_iff.mp steps
    split at rest
    · cases rest
    · rename_i other
      simp only [Bool.or_eq_true, bne_iff_ne, not_or, Bool.not_eq_true, ne_eq, not_not] at other
      exact .head ⟨.stepped stepped, other.2, .inr ⟨stepped, other.1⟩⟩ (ih rest)

/-- The node behind the first output has executed when the run has resolved, so that its outputs were
taken; the one behind the second has not, so that its were not. -/
theorem first_output_executes : ∃ w ms n m, Reachable routing w ∧ w.status 0 = .resolved ms ∧ n.slot = 1 ∧
    Chosen routing w n ∧ m.slot = 2 ∧ ¬ Chosen routing w m := by
  let u := firstRun routing 2
  let v := firstRun routing 3
  have reached : Reachable routing u := reachable_firstRun routing 2
  have compiled : Graph.compile (.list routingItems) = .ok routing.tree := rfl
  have declares : routing.tree.Declares := by
    unfold Tree.Declares
    decide +kernel
  have starting : u.focus = .enter 0 (.runner (.atom .null)) [] := rfl
  have started : u.step routing = some v := rfl
  have result : (calmSteps routing 17 v).any fun w => isResolved w 0 &&
      (routing.tree.nodes.any fun n => n.slot == 1 && (w.nodeState n).executed) &&
      routing.tree.nodes.any fun m => m.slot == 2 && !(w.nodeState m).executed := by decide +kernel
  obtain ⟨w, steps, all⟩ := (Option.any_eq_true _ _).mp result
  simp only [Bool.and_eq_true, List.any_eq_true, beq_iff_eq, Bool.not_eq_true'] at all
  obtain ⟨⟨settled, n, known, slot, executed⟩, m, known', slot', idle⟩ := all
  obtain ⟨ms, resolved⟩ := exists_of_isResolved settled
  have calm := calm_of_calmSteps steps
  have reached' : Reachable routing w := by
    have alone := Alone.start reached rfl starting (fun _ earlier => nomatch earlier) started rfl
    exact (Alone.calms calm (.move reached (.stepped started)) (Tree.compiled_of_compile compiled) alone).1
  have first := selected_branches_execute compiled declares reached rfl starting (fun _ earlier => nomatch earlier)
    started rfl calm known
  have second := selected_branches_execute compiled declares reached rfl starting (fun _ earlier => nomatch earlier)
    started rfl calm known'
  refine ⟨w, ms, n, m, reached', resolved, slot, first.1 executed, slot', fun chosen => ?_⟩
  have executed' := (second.2 ms resolved).mpr chosen
  rw [idle] at executed'
  cases executed'

end World

end Conductor
