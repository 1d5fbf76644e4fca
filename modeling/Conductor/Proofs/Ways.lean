import Conductor.Proofs.Done

/-!
# Ways to entries

A run comes to an entry of a branch list once it is over with the entries before it, to the members of
a group all at once, and to what a node selects once that node has completed. The path of an entry
tells the way to it: whatever leads there is found along the path.
-/

namespace Conductor

namespace Tree

/-- The entries of branch lists and the members of groups, with their paths. -/
inductive EntryAt (t : Tree) : Path → Entry → Prop where
  | listed {place : Path} {entries : List Entry} {i : Nat} {e : Entry} (branch : t.BranchAt place entries)
      (found : entries[i]? = some e) : EntryAt t (place ++ [.entry i]) e
  | member {place : Path} {entries members : List Entry} {i k : Nat} {e : Entry}
      (branch : t.BranchAt place entries) (group : entries[i]? = some (.nested members))
      (found : members[k]? = some e) : EntryAt t (place ++ [.entry i] ++ [.entry k]) e

variable {t : Tree} {p : Path} {e e' : Entry} {n : Node} {k : Nat} {entries inner : List Entry}

theorem step_inj {place place' : Path} {i j : Nat} (same : place ++ [Hop.entry i] = place' ++ [.entry j]) :
    place = place' ∧ i = j := by
  obtain ⟨places, hops⟩ := List.append_inj' same rfl
  exact ⟨places, Hop.entry.inj (List.cons.inj hops).1⟩

theorem Compiled.entry_unique (compiled : t.Compiled) (found : t.EntryAt p e) (found' : t.EntryAt p e') :
    e = e' := by
  -- the entries of a sequence and the members of a group lie at different depths
  have parity {place place' : Path} {i i' k : Nat} (sequence : place.isSequence) (sequence' : place'.isSequence)
      (same : place ++ [.entry i] = place' ++ [.entry i'] ++ [.entry k]) : False := by
    have depth := congrArg Path.isSequence same
    rw [isSequence_append, isSequence_append, isSequence_append, sequence, sequence'] at depth
    cases depth
  generalize same : p = q at found'
  cases found with
  | listed branch here =>
    cases found' with
    | listed branch' here' =>
      obtain ⟨rfl, rfl⟩ := step_inj same
      obtain rfl := compiled.unique branch branch'
      exact Option.some.inj (here.symm.trans here')
    | member branch' _ _ => exact (parity branch.isSequence branch'.isSequence same).elim
  | member branch group here =>
    cases found' with
    | listed branch' _ => exact (parity branch'.isSequence branch.isSequence same.symm).elim
    | member branch' group' here' =>
      obtain ⟨outer, rfl⟩ := step_inj same
      obtain ⟨rfl, rfl⟩ := step_inj outer
      obtain rfl := compiled.unique branch branch'
      obtain rfl := Entry.nested.inj (Option.some.inj (group.symm.trans group'))
      exact Option.some.inj (here.symm.trans here')

theorem EntryAt.step (found : t.EntryAt p (.nested entries)) (member : entries[k]? = some e) :
    t.EntryAt (p ++ [.entry k]) e := by
  generalize same : Entry.nested entries = outer at found
  cases found with
  | listed branch here =>
    subst same
    exact .member branch here member
  | member branch group here =>
    subst same
    have inner := BranchAt.nested branch group here
    simpa using EntryAt.listed inner member

theorem EntryAt.branchAt (found : t.EntryAt p (.nested entries)) (sequence : p.isSequence) :
    t.BranchAt p entries := by
  generalize same : Entry.nested entries = outer at found
  cases found with
  | listed branch here =>
    rw [isSequence_append, branch.isSequence] at sequence
    cases sequence
  | member branch group here =>
    subst same
    simpa using BranchAt.nested branch group here

theorem EntryAt.ne_nil (found : t.EntryAt [] e) : False := by
  generalize none : ([] : Path) = p at found
  cases found <;> simp at none

theorem EntryAt.ne_output {key : Key} (found : t.EntryAt (p ++ [.output key]) e) : False := by
  generalize same : p ++ [Hop.output key] = q at found
  cases found with
  | listed _ _ => cases (List.cons.inj (List.append_inj' same rfl).2).1
  | member _ _ _ => cases (List.cons.inj (List.append_inj' same rfl).2).1

theorem Places.entryAt (compiled : t.Compiled) (placed : t.Places n) : t.EntryAt n.path n.entry := by
  obtain ⟨place, entries, i, branch, here | ⟨members, k, group, member⟩⟩ := placed
  · rw [compiled.single _ _ _ _ branch here]
    exact .listed branch here
  · rw [compiled.grouped _ _ _ _ _ _ branch group member]
    simpa using EntryAt.member branch group member

theorem EntryAt.places (found : t.EntryAt p n.entry) : t.Places n := by
  generalize same : n.entry = e at found
  cases found with
  | listed branch here => exact ⟨_, _, _, branch, .inl (same ▸ here)⟩
  | member branch group here => exact ⟨_, _, _, branch, .inr ⟨_, _, group, same ▸ here⟩⟩

theorem Places.branchAt (placed : t.Places n) {key declared : Key}
    (route : n.route? key = some (declared, .list inner)) :
    t.BranchAt (n.path ++ [.output declared]) inner := by
  obtain ⟨place, entries, i, branch, here | ⟨members, k, group, member⟩⟩ := placed
  · exact .single branch here (Node.route?_declared route)
  · exact .grouped branch group member (Node.route?_declared route)

end Tree

namespace World

open Conductor.Tree

variable {plan : Plan} {w w' : World} {run : RunId} {p q place : Path} {e x : Entry} {n : Node} {r : Result}
  {before rest entries inner : List Entry} {declared : Key} {payload : Entries} {k : Nat}

inductive Comes (plan : Plan) (w : World) (run : RunId) : Path → Entry → Prop where
  | root {before rest : List Entry} {e : Entry} (split : plan.tree.branches = before ++ e :: rest)
      (past : ∀ x ∈ before, w.Over run x) : Comes plan w run [.entry before.length] e
  | member {p : Path} {members : List Entry} {k : Nat} {e : Entry}
      (outer : Comes plan w run p (.nested members)) (group : p.isSequence = false)
      (found : members[k]? = some e) : Comes plan w run (p ++ [.entry k]) e
  | inner {p : Path} {before rest : List Entry} {e : Entry}
      (outer : Comes plan w run p (.nested (before ++ e :: rest))) (sequence : p.isSequence)
      (past : ∀ x ∈ before, w.Over run x) : Comes plan w run (p ++ [.entry before.length]) e
  | selected {n : Node} {r : Result} {payload : Entries} {declared : Key} {before rest : List Entry} {e : Entry}
      (outer : Comes plan w run n.path n.entry) (completed : (run, .completed n.head r payload) ∈ w.notes)
      (selects : n.Selects r declared (before ++ e :: rest)) (past : ∀ x ∈ before, w.Over run x) :
      Comes plan w run (n.path ++ [.output declared] ++ [.entry before.length]) e

theorem Open.comes (compiled : plan.tree.Compiled) (opened : Open plan w run place entries) :
    ∀ before e rest, entries = before ++ e :: rest → (∀ x ∈ before, w.Over run x) →
      Comes plan w run (place ++ [.entry before.length]) e := by
  induction opened with
  | root => exact fun before e rest split past => .root split past
  | @nested place before' members rest' inner k outer past' found ih =>
    rintro before e rest rfl past
    have sequence := outer.branchAt.isSequence
    have group := Comes.member (ih _ _ _ rfl past') (by rw [isSequence_append, sequence]; rfl) found
    have there := group.inner (by rw [isSequence_append, isSequence_append, sequence]; rfl) past
    simpa using there
  | @selected place before' rest' inner e' n r payload declared outer past' own completed selects ih =>
    rintro before e rest rfl past
    have sequence := outer.branchAt.isSequence
    have here : (before' ++ e' :: rest')[before'.length]? = some e' := by simp
    have outer' := ih _ _ _ rfl past'
    refine .selected ?_ completed selects past
    obtain rfl | ⟨members, k, rfl, found⟩ := Entry.own_cases own
    · rw [compiled.single _ _ _ _ outer.branchAt here]
      exact outer'
    · have there := outer'.member (by rw [isSequence_append, sequence]; rfl) found
      rw [compiled.grouped _ _ _ _ _ _ outer.branchAt here found]
      simpa using there

theorem Stood.comes (compiled : plan.tree.Compiled) (stood : Stood plan w run n) :
    Comes plan w run n.path n.entry := by
  obtain ⟨place, before, rest, e, opened, past, own⟩ := stood
  have sequence := opened.branchAt.isSequence
  have here : (before ++ e :: rest)[before.length]? = some e := by simp
  have there := opened.comes compiled _ _ _ rfl past
  obtain rfl | ⟨members, k, rfl, found⟩ := Entry.own_cases own
  · rw [compiled.single _ _ _ _ opened.branchAt here]
    exact there
  · have within := there.member (by rw [isSequence_append, sequence]; rfl) found
    rw [compiled.grouped _ _ _ _ _ _ opened.branchAt here found]
    simpa using within

theorem Comes.entryAt (comes : Comes plan w run p e) : plan.tree.EntryAt p e := by
  have listed {place : Path} {before rest : List Entry} {e : Entry}
      (branch : plan.tree.BranchAt place (before ++ e :: rest)) :
      plan.tree.EntryAt (place ++ [.entry before.length]) e := .listed branch (by simp)
  induction comes with
  | @root before rest e split _ =>
    have branch : plan.tree.BranchAt [] (before ++ e :: rest) := split ▸ .root
    exact listed branch
  | member _ _ found ih => exact ih.step found
  | inner _ _ _ ih => exact ih.step (by simp)
  | selected _ _ selects _ ih =>
    obtain ⟨-, key, -, route⟩ := selects
    exact listed (ih.places.branchAt route)

/-- The first step on the way from an entry at a path to another path: to an entry of a nested list, or
to one of what a node has selected. -/
inductive Toward (plan : Plan) (w : World) (run : RunId) (p q : Path) : Entry → Prop where
  | nested {entries : List Entry} {k : Nat} {y : Entry} (member : entries[k]? = some y)
      (way : p ++ [.entry k] <+: q) : Toward plan w run p q (.nested entries)
  | selected {n : Node} {r : Result} {payload : Entries} {declared : Key} {inner : List Entry} {k : Nat}
      {y : Entry} (completed : (run, .completed n.head r payload) ∈ w.notes)
      (selects : n.Selects r declared inner) (member : inner[k]? = some y)
      (way : n.path ++ [.output declared] ++ [.entry k] <+: q) : Toward plan w run p q n.entry

theorem Toward.further {q' : Path} (toward : Toward plan w run p q e) (on : q <+: q') :
    Toward plan w run p q' e := by
  cases toward with
  | nested member way => exact .nested member (way.trans on)
  | selected completed selects member way => exact .selected completed selects member (way.trans on)

/-- A way that goes through an entry ends there, or goes on from there. -/
theorem Comes.toward (compiled : plan.tree.Compiled) (comes : Comes plan w run q x)
    (found : plan.tree.EntryAt p e) (along : p <+: q) : p = q ∧ e = x ∨ Toward plan w run p q e := by
  have ends {q : Path} {x : Entry} (comes : Comes plan w run q x) (same : p = q) : p = q ∧ e = x :=
    ⟨same, compiled.entry_unique found (same ▸ comes.entryAt)⟩
  induction comes with
  | @root before _ _ split past =>
    have whole : p <+: [] ++ [.entry before.length] := along
    rcases List.prefix_concat_iff.mp whole with same | none
    · exact .inl (ends (.root split past) same)
    · obtain rfl := List.prefix_nil.mp none
      exact found.ne_nil.elim
  | member outer group there ih =>
    rcases List.prefix_concat_iff.mp along with same | within
    · exact .inl (ends (.member outer group there) same)
    · rcases ih within with ⟨rfl, rfl⟩ | toward
      · exact .inr (.nested there List.prefix_rfl)
      · exact .inr (toward.further (List.prefix_append _ _))
  | @inner p' before rest y outer sequence past ih =>
    rcases List.prefix_concat_iff.mp along with same | within
    · exact .inl (ends (.inner outer sequence past) same)
    · rcases ih within with ⟨rfl, rfl⟩ | toward
      · have there : (before ++ y :: rest)[before.length]? = some y := by simp
        exact .inr (.nested there List.prefix_rfl)
      · exact .inr (toward.further (List.prefix_append _ _))
  | @selected n r payload declared before rest y outer completed selects past ih =>
    rcases List.prefix_concat_iff.mp along with same | within
    · exact .inl (ends (.selected outer completed selects past) same)
    · rcases List.prefix_concat_iff.mp within with same | earlier
      · exact (EntryAt.ne_output (same ▸ found)).elim
      · refine .inr ?_
        rcases ih earlier with ⟨rfl, rfl⟩ | toward
        · have there : (before ++ y :: rest)[before.length]? = some y := by simp
          exact .selected completed selects there List.prefix_rfl
        · exact toward.further ((List.prefix_append _ _).trans (List.prefix_append _ _))

/-- On the way to an entry a run is over with all entries before those that it goes through. -/
theorem Comes.past (compiled : plan.tree.Compiled) (comes : Comes plan w run q x)
    (branch : plan.tree.BranchAt place (before ++ e :: rest)) (along : place ++ [.entry before.length] <+: q) :
    ∀ y ∈ before, w.Over run y := by
  have last {place' : Path} {before' rest' : List Entry} {e' : Entry}
      (branch' : plan.tree.BranchAt place' (before' ++ e' :: rest')) (past : ∀ y ∈ before', w.Over run y)
      (same : place ++ [.entry before.length] = place' ++ [.entry before'.length]) :
      ∀ y ∈ before, w.Over run y := by
    obtain ⟨rfl, lengths⟩ := step_inj same
    have lists := compiled.unique branch branch'
    obtain ⟨rfl, -⟩ := List.append_inj lists lengths
    exact past
  induction comes with
  | @root before' rest' e' split past =>
    have whole : place ++ [.entry before.length] <+: [] ++ [.entry before'.length] := along
    have branch' : plan.tree.BranchAt [] (before' ++ e' :: rest') := split ▸ .root
    rcases List.prefix_concat_iff.mp whole with same | none
    · exact last branch' past same
    · simp at none
  | member outer group there ih =>
    rcases List.prefix_concat_iff.mp along with same | within
    · obtain ⟨rfl, -⟩ := step_inj same
      rw [branch.isSequence] at group
      cases group
    · exact ih within
  | @inner p' before' rest' y outer sequence past ih =>
    rcases List.prefix_concat_iff.mp along with same | within
    · exact last (outer.entryAt.branchAt sequence) past same
    · exact ih within
  | @selected n r payload declared before rest y outer completed selects past ih =>
    rcases List.prefix_concat_iff.mp along with same | within
    · obtain ⟨-, key, -, route⟩ := selects
      exact last (outer.entryAt.places.branchAt route) past same
    · rcases List.prefix_concat_iff.mp within with same | earlier
      · cases (List.cons.inj (List.append_inj' same rfl).2).1
      · exact ih earlier

/-- All nodes have run that a run comes to within an entry that is done, and so has what they select. The
run may have come to them later, or be another one in which nodes complete with the same outputs. -/
theorem Done.ran (compiled : plan.tree.Compiled) (done : w.Done run e) (found : plan.tree.EntryAt p e)
    {other : RunId} (comes : Comes plan w' other n.path n.entry) (along : p <+: n.path)
    (agree : ∀ (n : Node) r payload r' payload', (run, .completed n.head r payload) ∈ w.notes →
      (other, .completed n.head r' payload') ∈ w'.notes → r.path = r'.path) :
    ∃ r, w.Ran run n r ∧ w.Routed run n r := by
  induction done generalizing p with
  | plain m r ran null =>
    rcases comes.toward compiled found along with ⟨-, same⟩ | toward
    · obtain rfl := entry_injective same
      exact ⟨r, ran, .inl null⟩
    · generalize own : m.entry = e at toward
      cases toward with
      | nested _ _ => cases own
      | selected completed selects _ _ =>
        obtain rfl := entry_injective own
        obtain ⟨payload, completed'⟩ := ran.completed
        exact absurd ((agree m _ _ _ _ completed' completed).symm.trans null) selects.1
  | @branched m r declared inner ran selects all ih =>
    rcases comes.toward compiled found along with ⟨-, same⟩ | toward
    · obtain rfl := entry_injective same
      exact ⟨r, ran, .inr ⟨declared, inner, selects, all⟩⟩
    · generalize own : m.entry = e at toward
      cases toward with
      | nested _ _ => cases own
      | selected completed selects' member way =>
        obtain rfl := entry_injective own
        obtain ⟨payload, completed'⟩ := ran.completed
        obtain ⟨rfl, rfl⟩ := (selects.of_path (agree m _ _ _ _ completed' completed)).unique selects'
        obtain ⟨-, key, -, route⟩ := selects
        exact ih _ (List.mem_of_getElem? member)
          (.listed (found.places.branchAt route) member) way
  | nested _ ih =>
    rcases comes.toward compiled found along with ⟨-, same⟩ | toward
    · cases same
    · generalize own : Entry.nested _ = e at toward
      cases toward with
      | nested member way =>
        obtain rfl := Entry.nested.inj own
        exact ih _ (List.mem_of_getElem? member) (found.step member) way
      | selected _ _ _ _ => cases own

end World

end Conductor
