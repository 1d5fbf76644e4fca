import Conductor.Proofs.Ledger

/-!
# What is done

An entry of a branch list is done when its nodes have run: they have completed, what their results
select is done, and nothing that they began is still under way or has failed. A branch list is open
once the results that lead to it have come. All of this stays so, however the machine moves on.
-/

namespace Conductor

/-- Whether a result selects a branch list of a node, which is declared under a key. -/
def Node.Selects (n : Node) (r : Result) (declared : Key) (inner : List Entry) : Prop :=
  r.path ≠ .atom .null ∧
    ∃ key, Template.keyOf r.path = .ok key ∧ n.route? key = some (declared, .list inner)

theorem Node.Selects.of_path {n : Node} {r r' : Result} {declared : Key} {inner : List Entry}
    (selects : n.Selects r declared inner) (same : r.path = r'.path) : n.Selects r' declared inner := by
  unfold Node.Selects at selects ⊢
  rwa [← same]

theorem Node.Selects.unique {n : Node} {r : Result} {declared declared' : Key} {inner inner' : List Entry}
    (selects : n.Selects r declared inner) (selects' : n.Selects r declared' inner') :
    declared = declared' ∧ inner = inner' := by
  obtain ⟨-, key, same, route⟩ := selects
  obtain ⟨-, key', same', route'⟩ := selects'
  obtain rfl := Except.ok.inj (same.symm.trans same')
  have both := Option.some.inj (route.symm.trans route')
  exact ⟨congrArg Prod.fst both, Branch.list.inj (congrArg Prod.snd both)⟩

theorem Entry.mem_own_self (n : Node) : n ∈ n.entry.own := List.mem_singleton_self _

theorem Entry.mem_own_nested {n : Node} {members : List Entry} :
    n ∈ (Entry.nested members).own ↔ n.entry ∈ members := by
  simp only [Entry.own, List.mem_filterMap]
  constructor
  · rintro ⟨e, member, own⟩
    cases e with
    | node head outputs =>
      obtain rfl := Option.some.inj own
      exact member
    | nested _ => cases own
  · exact fun member => ⟨n.entry, member, rfl⟩

/-- A node that an entry has as its own is that entry, or a member of the group that the entry is. -/
theorem Entry.own_cases {n : Node} {e : Entry} (own : n ∈ e.own) :
    e = n.entry ∨ ∃ (members : List Entry) (k : Nat), e = .nested members ∧ members[k]? = some n.entry := by
  cases e with
  | node head outputs =>
    obtain rfl := List.mem_singleton.mp own
    exact .inl rfl
  | nested members =>
    obtain ⟨k, found⟩ := List.getElem?_of_mem (mem_own_nested.mp own)
    exact .inr ⟨members, k, rfl, found⟩

namespace World

variable {w w' : World} {plan : Plan} {run : RunId} {n : Node} {r : Result} {h : Head} {b f : FutureId}
  {place : Path} {entries inner : List Entry} {e : Entry} {c : CompletionId}

/-- Whether a body has ended, and not by a failure that its run could hear of or is still to hear of. -/
def Fine (w : World) (run : RunId) (h : Head) (b : FutureId) : Prop :=
  ∃ s, w.settlement? b = some s ∧ (∀ other, ¬ w.Awaits other b) ∧
    ∀ e, s = .failed e → ∃ d, d.isRebound ∧ (run, .unheard h e d) ∈ w.notes

structure Ran (w : World) (run : RunId) (n : Node) (r : Result) : Prop where
  called : ∃ args, (run, .called n.head args) ∈ w.notes
  completed : ∃ payload, (run, .completed n.head r payload) ∈ w.notes
  followed : (run, .followed n.head) ∈ w.notes
  ended : (run, .began n.head none) ∈ w.notes → (run, .ended n.head) ∈ w.notes
  bodies : ∀ b, (run, .began n.head (some b)) ∈ w.notes → w.Fine run n.head b

inductive Done (w : World) (run : RunId) : Entry → Prop where
  | plain (n : Node) (r : Result) (ran : w.Ran run n r) (null : r.path = .atom .null) : Done w run n.entry
  | branched (n : Node) (r : Result) {declared : Key} {inner : List Entry} (ran : w.Ran run n r)
      (selects : n.Selects r declared inner) (all : ∀ e ∈ inner, Done w run e) : Done w run n.entry
  | nested {entries : List Entry} (all : ∀ e ∈ entries, Done w run e) : Done w run (.nested entries)

def Over (w : World) (run : RunId) (e : Entry) : Prop := w.isSettled run ∨ w.Done run e

def Routed (w : World) (run : RunId) (n : Node) (r : Result) : Prop :=
  r.path = .atom .null ∨ ∃ declared inner, n.Selects r declared inner ∧ ∀ e ∈ inner, w.Done run e

/-- The branch lists that a run has come to, with their places: it is over with all entries before the
one through which it has come to a list. -/
inductive Open (plan : Plan) (w : World) (run : RunId) : Path → List Entry → Prop where
  | root : Open plan w run [] plan.tree.branches
  | nested {place : Path} {before members rest inner : List Entry} {k : Nat}
      (outer : Open plan w run place (before ++ .nested members :: rest))
      (past : ∀ e ∈ before, w.Over run e) (member : members[k]? = some (.nested inner)) :
      Open plan w run (place ++ [.entry before.length, .entry k]) inner
  | selected {place : Path} {before rest inner : List Entry} {e : Entry} {n : Node} {r : Result}
      {payload : Entries} {declared : Key} (outer : Open plan w run place (before ++ e :: rest))
      (past : ∀ e ∈ before, w.Over run e) (own : n ∈ e.own)
      (completed : (run, .completed n.head r payload) ∈ w.notes) (selects : n.Selects r declared inner) :
      Open plan w run (n.path ++ [.output declared]) inner

/-- Whether a run has come to the entry that a node is, by itself or in a group. -/
def Stood (plan : Plan) (w : World) (run : RunId) (n : Node) : Prop :=
  ∃ (place : Path) (before rest : List Entry) (e : Entry), Open plan w run place (before ++ e :: rest) ∧
    (∀ e ∈ before, w.Over run e) ∧ n ∈ e.own

structure Later (w w' : World) : Prop where
  grown : Grown w w'
  settled : ∀ run, w.isSettled run → w'.isSettled run
  decided : ∀ run, w.isSettled run → w'.status run = w.status run
  begun : ∀ run h args body, (run, .called h args) ∈ w.notes → (run, .began h body) ∈ w'.notes →
    (run, .began h body) ∈ w.notes
  watched : ∀ run h args c f b, (run, .called h args) ∈ w.notes → w.first? c = some f →
    w.Watched run h c b → w'.Watched run h c b
  awaited : ∀ run b, b < w.futures.size → w'.Awaits run b → w.Awaits run b

theorem Move.later (reached : Reachable plan w) (compiled : plan.tree.Compiled) (m : Move plan w w') :
    Later w w' where
  grown := m.grown reached.sound.steady
  settled _ past := m.settled reached.sound.steady past
  decided run past := by
    obtain ⟨-, -, same, -⟩ := m.inert reached.sound.steady past
    rw [status, status, same]
  begun _ _ _ _ called begun := m.begun reached compiled called begun
  watched _ _ _ _ _ _ called report watched :=
    watched.move reached.sound reached.freed report (reached.known called) m
  awaited run b old waits := by
    rcases m.awaits reached.sound.steady waits with before | ⟨_, _, _, _, h, act, -, member⟩
    · exact before
    · cases act.happens member with
      | began _ _ _ _ new => exact absurd old (Nat.not_lt.mpr (new b rfl))

/-! ### What stays -/

variable (after : Later w w')
include after

theorem Later.noted {x : Note} (member : x ∈ w.notes) : x ∈ w'.notes := after.grown.subset_notes member

theorem Fine.later (fine : w.Fine run h b) : w'.Fine run h b := by
  obtain ⟨s, settled, unawaited, told⟩ := fine
  have old : b < w.futures.size := settlement?_lt settled
  refine ⟨s, after.grown.settlements b s settled, fun other waits => ?_, fun e failed => ?_⟩
  · exact unawaited other (after.awaited other b old waits)
  obtain ⟨d, rebound, unheard⟩ := told e failed
  exact ⟨d, rebound, after.noted unheard⟩

theorem Ran.later (ran : w.Ran run n r) : w'.Ran run n r := by
  obtain ⟨⟨args, called⟩, ⟨payload, completed⟩, followed, ended, bodies⟩ := ran
  refine ⟨⟨args, after.noted called⟩, ⟨payload, after.noted completed⟩, after.noted followed, ?_, ?_⟩
  · exact fun begun => after.noted (ended (after.begun _ _ _ _ called begun))
  · exact fun b begun => (bodies b (after.begun _ _ _ _ called begun)).later after

theorem Done.later (done : w.Done run e) : w'.Done run e := by
  induction done with
  | plain n r ran null => exact .plain n r (ran.later after) null
  | branched n r ran selects _ ih => exact .branched n r (ran.later after) selects ih
  | nested _ ih => exact .nested ih

theorem Over.later (past : w.Over run e) : w'.Over run e :=
  past.imp (after.settled run) (Done.later after)

theorem Routed.later (routed : w.Routed run n r) : w'.Routed run n r := by
  rcases routed with null | ⟨declared, inner, selects, all⟩
  · exact .inl null
  · exact .inr ⟨declared, inner, selects, fun e member => (all e member).later after⟩

theorem Open.later (opened : Open plan w run place entries) : Open plan w' run place entries := by
  induction opened with
  | root => exact .root
  | nested _ past member ih => exact .nested ih (fun e before => (past e before).later after) member
  | selected _ past own completed selects ih =>
    exact .selected ih (fun e before => (past e before).later after) own (after.noted completed) selects

theorem Stood.later (stood : Stood plan w run n) : Stood plan w' run n := by
  obtain ⟨place, before, rest, e, opened, past, own⟩ := stood
  exact ⟨place, before, rest, e, opened.later after, fun e before => (past e before).later after, own⟩

omit after

/-! ### What done entries and open lists tell -/

theorem Done.of_routed (ran : w.Ran run n r) (routed : w.Routed run n r) : w.Done run n.entry := by
  rcases routed with null | ⟨declared, inner, selects, all⟩
  · exact .plain n r ran null
  · exact .branched n r ran selects all

/-- A run that is over with all entries of a list has settled, or they are done. -/
theorem over_nested (all : ∀ e ∈ entries, w.Over run e) : w.Over run (.nested entries) := by
  by_cases settled : w.isSettled run
  · exact .inl settled
  · exact .inr (.nested fun e member => (all e member).resolve_left settled)

theorem Open.branchAt (opened : Open plan w run place entries) : plan.tree.BranchAt place entries := by
  induction opened with
  | root => exact .root
  | nested _ _ member ih => exact .nested ih (by simp) member
  | @selected _ before rest _ e _ _ _ _ _ _ own _ selects ih =>
    obtain ⟨-, key, -, route⟩ := selects
    have here : (before ++ e :: rest)[before.length]? = some e := by simp
    obtain rfl | ⟨members, k, rfl, member⟩ := Entry.own_cases own
    · exact .single ih here (Node.route?_declared route)
    · exact .grouped ih here member (Node.route?_declared route)

theorem Stood.places (stood : Stood plan w run n) : plan.tree.Places n := by
  obtain ⟨place, before, rest, e, opened, -, own⟩ := stood
  refine ⟨place, _, before.length, opened.branchAt, ?_⟩
  obtain rfl | ⟨members, k, rfl, member⟩ := Entry.own_cases own
  · exact .inl (by simp)
  · exact .inr ⟨members, k, by simp, member⟩

theorem Stood.selected {payload : Entries} {declared : Key} (stood : Stood plan w run n)
    (completed : (run, .completed n.head r payload) ∈ w.notes) (selects : n.Selects r declared inner) :
    Open plan w run (n.path ++ [.output declared]) inner := by
  obtain ⟨place, before, rest, e, opened, past, own⟩ := stood
  exact .selected opened past own completed selects

end World

end Conductor
