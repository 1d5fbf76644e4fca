import Conductor.Proofs.Addresses
import Conductor.Proofs.Sequences

/-!
# How nodes lie to each other

Of two nodes of a tree one is below the other, or they lie in different entries of a branch list, in
different members of a group, or behind different outputs of a node. Only the members of a group are left to
the schedule: a run comes to no two nodes behind different outputs of one node, and completes any other two
in the order of the walk.
-/

namespace Conductor

namespace Tree

variable {t : Tree} {p place : Path} {e x y : Entry} {n m : Node} {entries : List Entry} {i j : Nat}
  {routes : List (Key × Branch)}

/-- Whether a node has another one below it, or lies in an earlier entry of a branch list. -/
inductive Ahead (t : Tree) (n m : Node) : Prop where
  | below (within : m ∈ n.below)
  | earlier {place : Path} {entries : List Entry} {i j : Nat} {x y : Entry} (branch : t.BranchAt place entries)
      (less : i < j) (first : entries[i]? = some x) (second : entries[j]? = some y) (within : n ∈ x.nodes)
      (within' : m ∈ y.nodes) : Ahead t n m

theorem Ahead.sublist (ahead : t.Ahead n m) (placed : t.Places n) : [n, m].Sublist t.nodes := by
  cases ahead with
  | below within => exact ((List.singleton_sublist.mpr within).cons_cons n).trans placed.sublist
  | earlier branch less first second within within' =>
    exact (sublist_of_lt less first second within within').trans branch.sublist

def Beside (t : Tree) (n m : Node) : Prop :=
  ∃ (place : Path) (entries members : List Entry) (k i j : Nat) (x y : Entry), t.BranchAt place entries ∧
    entries[k]? = some (.nested members) ∧ i ≠ j ∧ members[i]? = some x ∧ members[j]? = some y ∧
    n ∈ x.nodes ∧ m ∈ y.nodes

/-- Whether two nodes lie behind different outputs of a node. -/
def Exclusive (t : Tree) (n m : Node) : Prop :=
  ∃ o ∈ t.nodes, ∃ (k l : Key) (b c : Branch), (k, b) ∈ o.routes ∧ (l, c) ∈ o.routes ∧ ¬ k.same l ∧
    n ∈ b.nodes ∧ m ∈ c.nodes

inductive Arranged (t : Tree) (n m : Node) : Prop where
  | same (same : n = m)
  | ahead (ahead : t.Ahead n m)
  | behind (behind : t.Ahead m n)
  | beside (beside : t.Beside n m)
  | exclusive (exclusive : t.Exclusive n m)

/-- Two nodes in a branch list lie in different entries of it, or in the same one. -/
theorem BranchAt.arranged (branch : t.BranchAt place entries)
    (inner : ∀ e ∈ entries, ∀ n ∈ e.nodes, ∀ m ∈ e.nodes, t.Arranged n m) (within : n ∈ nodesOf entries)
    (within' : m ∈ nodesOf entries) : t.Arranged n m := by
  obtain ⟨i, x, first, mine⟩ := entry_of_mem within
  obtain ⟨j, y, second, yours⟩ := entry_of_mem within'
  rcases Nat.lt_trichotomy i j with less | rfl | more
  · exact .ahead (.earlier branch less first second mine yours)
  · obtain rfl := Option.some.inj (first.symm.trans second)
    exact inner x (List.mem_of_getElem? first) n mine m yours
  · exact .behind (.earlier branch more second first yours mine)

/-- Two nodes in a nested list lie in different members of a group, in different entries of a sequence, or
in the same entry. -/
theorem EntryAt.arranged (found : t.EntryAt p (.nested entries))
    (inner : ∀ e ∈ entries, ∀ n ∈ e.nodes, ∀ m ∈ e.nodes, t.Arranged n m) (within : n ∈ nodesOf entries)
    (within' : m ∈ nodesOf entries) : t.Arranged n m := by
  generalize same : Entry.nested entries = outer at found
  cases found with
  | listed branch group =>
    subst same
    obtain ⟨i, x, first, mine⟩ := entry_of_mem within
    obtain ⟨j, y, second, yours⟩ := entry_of_mem within'
    by_cases apart : i = j
    · subst apart
      obtain rfl := Option.some.inj (first.symm.trans second)
      exact inner x (List.mem_of_getElem? first) n mine m yours
    · exact .beside ⟨_, _, _, _, i, j, x, y, branch, group, apart, first, second, mine, yours⟩
  | member branch group here =>
    subst same
    exact (BranchAt.nested branch group here).arranged inner within within'

/-- Two nodes behind outputs of a node lie behind different ones, or behind the same one. -/
theorem arranged_below {o : Node} (declares : t.Declares) (known : o ∈ t.nodes)
    (inner : ∀ r ∈ o.routes, ∀ n ∈ r.2.nodes, ∀ m ∈ r.2.nodes, t.Arranged n m) (within : n ∈ o.below)
    (within' : m ∈ o.below) : t.Arranged n m := by
  obtain ⟨k, b, declared, mine⟩ := World.branch_of_mem within
  obtain ⟨l, c, declared', yours⟩ := World.branch_of_mem within'
  by_cases same : k.same l
  · have distinct := declares o known
    have first := World.find?_route distinct declared same
    have second := World.find?_route distinct declared' (Key.same_iff.mpr rfl)
    obtain ⟨rfl, rfl⟩ := Prod.mk.inj (Option.some.inj (first.symm.trans second))
    exact inner _ declared n mine m yours
  · exact .exclusive ⟨o, known, k, l, b, c, declared, declared', same, mine, yours⟩

/-- Any two nodes below an entry are arranged, and so are those of a list, of outputs and of a branch. -/
theorem arranged_of_walk (declares : t.Declares) :
    (∀ e : Entry, (∃ p, t.EntryAt p e) → ∀ n ∈ e.nodes, ∀ m ∈ e.nodes, t.Arranged n m) ∧
    (∀ entries : List Entry, (∀ e ∈ entries, ∃ p, t.EntryAt p e) →
      ∀ e ∈ entries, ∀ n ∈ e.nodes, ∀ m ∈ e.nodes, t.Arranged n m) ∧
    (∀ routes : List (Key × Branch), (∀ k inner, (k, .list inner) ∈ routes → ∃ p, t.BranchAt p inner) →
      ∀ r ∈ routes, ∀ n ∈ r.2.nodes, ∀ m ∈ r.2.nodes, t.Arranged n m) ∧
    (∀ b : Branch, (∀ inner, b = .list inner → ∃ p, t.BranchAt p inner) →
      ∀ n ∈ b.nodes, ∀ m ∈ b.nodes, t.Arranged n m) := by
  refine Entry.nodes.mutual_induct _ _ _ _ ?node ?nested ?list ?raw ?nil ?cons ?noRoutes ?route
  -- an entry is a node or a group
  case node =>
    rintro head outputs ih ⟨p, found⟩ n within m within'
    let o : Node := ⟨head, outputs⟩
    have placed : t.Places o := EntryAt.places (n := o) found
    have known : o ∈ t.nodes := placed.sublist.subset List.mem_cons_self
    have inner : ∀ r ∈ o.routes, ∀ n ∈ r.2.nodes, ∀ m ∈ r.2.nodes, t.Arranged n m := by
      cases outputs with
      | none => simp [o, Node.routes]
      | some routes =>
        refine ih fun k inner member => ?_
        have route := World.find?_route (declares _ known) member (Key.same_iff.mpr rfl)
        exact ⟨_, placed.branchAt route⟩
    have split {n : Node} (within : n ∈ (Entry.node head outputs).nodes) : n = o ∨ n ∈ o.below := by
      rw [show (Entry.node head outputs).nodes = o.nodes from nodes_entry o] at within
      exact List.mem_cons.mp within
    rcases split within with rfl | below <;> rcases split within' with rfl | below'
    · exact .same rfl
    · exact .ahead (.below below')
    · exact .behind (.below below)
    · exact arranged_below declares known inner below below'
  case nested =>
    rintro entries ih ⟨p, found⟩ n within m within'
    refine found.arranged (ih fun e member => ?_) (by simpa only [Entry.nodes] using within)
      (by simpa only [Entry.nodes] using within')
    obtain ⟨i, here⟩ := List.getElem?_of_mem member
    exact ⟨_, found.step here⟩
  -- a branch is a list or something else
  case list =>
    intro entries ih branch n within m within'
    obtain ⟨p, branch⟩ := branch entries rfl
    refine branch.arranged (ih fun e member => ?_) (by simpa only [Branch.nodes] using within)
      (by simpa only [Branch.nodes] using within')
    obtain ⟨i, found⟩ := List.getElem?_of_mem member
    exact ⟨_, .listed branch found⟩
  case raw =>
    intro item _ n within
    simp [Branch.nodes] at within
  -- lists and outputs are empty or begin with one of theirs
  case nil =>
    intro _ e member
    cases member
  case cons =>
    intro e es ih ih' found x member
    rcases List.mem_cons.mp member with rfl | later
    · exact ih (found x List.mem_cons_self)
    · exact ih' (fun e member => found e (List.mem_cons_of_mem _ member)) x later
  case noRoutes =>
    intro _ r member
    cases member
  case route =>
    intro k b rest ih ih' branch r member
    rcases List.mem_cons.mp member with rfl | later
    · exact ih fun inner same => branch k inner (same ▸ List.mem_cons_self)
    · exact ih' (fun k inner member => branch k inner (List.mem_cons_of_mem _ member)) r later

theorem arranged (declares : t.Declares) (known : n ∈ t.nodes) (known' : m ∈ t.nodes) : t.Arranged n m := by
  refine BranchAt.root.arranged ((arranged_of_walk declares).2.1 t.branches fun e member => ?_) known known'
  obtain ⟨i, found⟩ := List.getElem?_of_mem member
  exact ⟨_, .listed .root found⟩

theorem Compiled.entry_within (compiled : t.Compiled) (declares : t.Declares) (found : t.EntryAt p e)
    (within : n ∈ e.nodes) : p <+: n.path := by
  cases found with
  | listed branch here => exact compiled.within _ _ _ _ _ branch here within
  | @member place entries members i k _ branch group here =>
    have found : t.EntryAt (place ++ [.entry i] ++ [.entry k]) e := .member branch group here
    cases e with
    | nested inner =>
      obtain ⟨j, x, there, inside⟩ := entry_of_mem (by simpa only [Entry.nodes] using within)
      have along := compiled.within _ _ _ _ _ (BranchAt.nested branch group here) there inside
      have whole : place ++ [Hop.entry i, .entry k] ++ [.entry j] =
          place ++ [.entry i] ++ [.entry k] ++ [.entry j] := by
        simp
      exact (List.prefix_append _ _).trans (whole ▸ along)
    | node head outputs =>
      let o : Node := ⟨head, outputs⟩
      have placed : t.Places o := EntryAt.places (n := o) found
      have path : o.path = place ++ [.entry i] ++ [.entry k] := by
        simpa using compiled.grouped _ _ _ _ _ o branch group here
      rw [show (Entry.node head outputs).nodes = o.nodes from nodes_entry o] at within
      rcases List.mem_cons.mp within with rfl | below
      · exact path ▸ List.prefix_rfl
      · obtain ⟨key, b, declared, inside⟩ := World.branch_of_mem below
        cases b with
        | raw _ => cases inside
        | list inner =>
          have known := placed.sublist.subset List.mem_cons_self
          have route := World.find?_route (declares o known) declared (Key.same_iff.mpr rfl)
          obtain ⟨j, x, there, inside⟩ := entry_of_mem inside
          have along := compiled.within _ _ _ _ _ (placed.branchAt route) there inside
          rw [path, List.append_assoc _ [Hop.output key]] at along
          exact (List.prefix_append _ _).trans along

/-- Two nodes in different members of a group are told apart, and do not stand in the root list. -/
theorem Compiled.apart_of_beside (compiled : t.Compiled) (declares : t.Declares) (beside : t.Beside n m) :
    n.slot ≠ m.slot ∧ 2 ≤ n.path.length ∧ 2 ≤ m.path.length := by
  obtain ⟨place, entries, members, k, i, j, x, y, branch, group, apart, first, second, within, within'⟩ := beside
  have inside : (nodesOf members).Sublist t.nodes := by
    simpa only [Entry.nodes] using (nodes_sublist group).trans branch.sublist
  have deep {i : Nat} {x : Entry} {n : Node} (found : members[i]? = some x) (within : n ∈ x.nodes) :
      2 ≤ n.path.length := by
    have along := (compiled.entry_within declares (.member branch group found) within).length_le
    simp only [List.length_append, List.length_singleton] at along
    omega
  refine ⟨?_, deep first within, deep second within'⟩
  have differ {n m : Node} (both : [n, m].Sublist (nodesOf members)) : n.slot ≠ m.slot := by
    have distinct := ((both.trans inside).map Node.slot).nodup compiled.slots
    simpa using distinct
  rcases Nat.lt_or_gt_of_ne apart with less | more
  · exact differ (sublist_of_lt less first second within within')
  · exact (differ (sublist_of_lt more second first within' within)).symm

end Tree

namespace World

open Conductor.Tree

variable {plan : Plan} {w v v' : World} {run : RunId} {n m : Node} {h : Head} {r r' : Result}
  {payload payload' : Entries} {x : Note} {later earlier : List Note}

/-! ### Moments -/

/-- Whatever is noted is noted by a move, after everything that was noted before it. -/
theorem Reachable.moment (reached : Reachable plan w) (later : List Note) (split : w.notes = later ++ x :: earlier) :
    ∃ v v' last recent, Reachable plan v ∧ Move plan v v' ∧ Noting plan v (last ++ x :: recent) v' ∧
      earlier = recent ++ v.notes := by
  induction reached generalizing later with
  | fresh fresh => simp [notes, fresh.journal] at split
  | @move v v' before m ih =>
    obtain ⟨notes, noting⟩ := m.noting before.sound
    rcases List.append_eq_append_iff.mp (noting.noted.symm.trans split) with ⟨more, -, rest⟩ | ⟨more, here, rest⟩
    · exact ih _ rest
    · cases more with
      | nil => exact ih [] rest.symm
      | cons y more =>
        obtain ⟨rfl, rfl⟩ := List.cons.inj rest
        exact ⟨v, v', later, more, before, m, here ▸ noting, rfl⟩

/-- A node is called while its run goes on, where the run has come to the node. -/
theorem Noting.calls {notes : List Note} {args : Entries} (reached : Reachable plan v) (compiled : plan.tree.Compiled)
    (known : n ∈ plan.tree.nodes) (noting : Noting plan v notes v') (called : (run, .called n.head args) ∈ notes) :
    v.isSettled run = false ∧ Comes plan v run n.path n.entry := by
  obtain ⟨aim, ordered⟩ := reached.ordered compiled
  generalize same : n.head = h at called
  cases noting.happens called with
  | called m _ fresh calls =>
    have stands := Calls.stood ordered calls
    obtain rfl := compiled.eq_of_head stands.mem known same.symm
    exact ⟨fresh, stands.comes compiled⟩

/-- What a node completes with is merged while its run goes on, where the run has come to the node. -/
theorem Noting.completes {notes : List Note} (reached : Reachable plan v) (compiled : plan.tree.Compiled)
    (known : n ∈ plan.tree.nodes) (m : Move plan v v') (noting : Noting plan v notes v')
    (completed : (run, .completed n.head r payload) ∈ notes) :
    v.isSettled run = false ∧ Comes plan v run n.path n.entry := by
  obtain ⟨aim, ordered⟩ := reached.ordered compiled
  refine ⟨?_, ?_⟩
  · by_contra past
    obtain ⟨notes', noted, -, aftermath⟩ := m.inert reached.sound.steady (by simpa using past)
    obtain rfl := List.append_cancel_right (noting.noted.symm.trans noted)
    cases aftermath _ completed
  · have stood (call : Call) (body : Option FutureId) (reports : Reports run call body v.focus) :
        Stood plan v run call.node := by
      have focused := ordered.focus
      generalize here : v.focus = focus at reports focused
      cases reports with
      | sequential => exact Calls.stood ordered (here ▸ .sequential)
      | returning =>
        obtain ⟨a, -, fits⟩ := focused
        cases fits with
        | played own => cases own
        | inside _ stood => exact stood
        | outside _ stood => exact stood
      | completing =>
        obtain ⟨a, -, fits⟩ := focused
        cases fits with
        | played own => cases own
        | completing tended => exact tended.stood
    generalize same : n.head = h at completed
    cases noting.happens completed with
    | completed call _ _ _ reports _ =>
      have stands := stood call _ reports
      obtain rfl := compiled.eq_of_head stands.mem known same.symm
      exact stands.comes compiled

/-! ### Order and exclusion -/

/-- A run that comes to a node behind an output of another one was led there by that output. -/
theorem Comes.owner (comes : Comes plan w run m.path m.entry) (compiled : plan.tree.Compiled)
    (declares : plan.tree.Declares) (known : n ∈ plan.tree.nodes) {k : Key} {b : Branch} (declared : (k, b) ∈ n.routes)
    (within : m ∈ b.nodes) : ∃ r payload inner, (run, .completed n.head r payload) ∈ w.notes ∧ n.Selects r k inner := by
  cases b with
  | raw _ => cases within
  | list inner =>
    have placed := (mem_nodes_iff declares).mp known
    have route := find?_route (declares n known) declared (Key.same_iff.mpr rfl)
    obtain ⟨i, e, found, inside⟩ := entry_of_mem within
    have along := compiled.within _ _ _ _ _ (placed.branchAt route) found inside
    obtain ⟨owner, r, payload, inner', path, comes', completed, selects⟩ :=
      comes.hops ((List.prefix_append _ _).trans along)
    -- only that node has its path
    rw [path] at comes'
    obtain rfl := entry_injective (compiled.entry_unique comes'.entryAt (placed.entryAt compiled))
    exact ⟨r, payload, inner', completed, selects⟩

theorem Reachable.stood_of_completed (reached : Reachable plan w) (compiled : plan.tree.Compiled)
    (known : n ∈ plan.tree.nodes) (completed : (run, .completed n.head r payload) ∈ w.notes) : Stood plan w run n := by
  obtain ⟨n', same, stood⟩ := reached.completed_stood compiled completed
  exact compiled.eq_of_head stood.mem known same ▸ stood

theorem split_of_getElem? {α : Type} {l : List α} {j : Nat} {y : α} (found : l[j]? = some y) :
    ∃ before rest, l = before ++ y :: rest ∧ before.length = j := by
  obtain ⟨bound, rfl⟩ := List.getElem?_eq_some_iff.mp found
  exact ⟨l.take j, l.drop (j + 1), by simp, by simp; omega⟩

section

variable (reached : Reachable plan w) (compiled : plan.tree.Compiled) (declares : plan.tree.Declares)
  (known : n ∈ plan.tree.nodes) (completed : (run, .completed n.head r payload) ∈ w.notes)
include reached compiled declares known completed

/-- A node of an entry that was done has completed by then, if it ever does. -/
theorem Done.has_completed {p : Path} {x : Entry} (done : v.Done run x) (found : plan.tree.EntryAt p x)
    (within : n ∈ x.nodes) (grown : v.notes ⊆ w.notes) : (run, .completed n.head r payload) ∈ v.notes := by
  have comes := (reached.stood_of_completed compiled known completed).comes compiled
  obtain ⟨r₁, ran, -⟩ := done.ran compiled found comes (compiled.entry_within declares found within)
    fun m r payload r' payload' there there' =>
      congrArg Result.path (reached.completed_once compiled (grown there) there').1
  obtain ⟨payload₁, there⟩ := ran.completed
  obtain ⟨rfl, rfl⟩ := reached.completed_once compiled completed (grown there)
  exact there

/-- A run that comes to a node has completed the nodes that are ahead of it, if it ever does. -/
theorem Comes.has_completed (comes : Comes plan v run m.path m.entry) (running : v.isSettled run = false)
    (ahead : plan.tree.Ahead n m) (split : w.notes = later ++ x :: (earlier ++ v.notes)) :
    (run, .completed n.head r payload) ∈ earlier ++ v.notes := by
  have grown : v.notes ⊆ w.notes := by
    intro y member
    exact split ▸ List.mem_append_right _ (List.mem_cons_of_mem _ (List.mem_append_right _ member))
  refine List.mem_append_right _ ?_
  cases ahead with
  | below within =>
    obtain ⟨k, b, declared, inside⟩ := branch_of_mem within
    obtain ⟨r₁, payload₁, -, there, -⟩ := comes.owner compiled declares known declared inside
    obtain ⟨rfl, rfl⟩ := reached.completed_once compiled completed (grown there)
    exact there
  | @earlier place entries i j x y branch less first second within within' =>
    obtain ⟨front, rest, rfl, rfl⟩ := split_of_getElem? second
    have along := compiled.within _ _ _ _ _ branch second within'
    have ahead : x ∈ front := List.mem_of_getElem? (by rwa [List.getElem?_append_left less] at first)
    have done : v.Done run x := (comes.past compiled branch along x ahead).resolve_left (by simp [running])
    exact done.has_completed reached compiled declares known completed (.listed branch first) within grown

/-- A run that comes to two nodes of which one is ahead of the other completes that one first. -/
theorem completed_ahead (known' : m ∈ plan.tree.nodes) (ahead : plan.tree.Ahead n m)
    (split : w.notes = later ++ (run, .completed m.head r' payload') :: earlier) :
    (run, .completed n.head r payload) ∈ earlier := by
  obtain ⟨v, v', last, recent, before, m', noting, rfl⟩ := reached.moment _ split
  obtain ⟨running, comes⟩ := noting.completes before compiled known' m' (List.mem_append_right _ List.mem_cons_self)
  exact comes.has_completed reached compiled declares known completed running ahead split

theorem called_ahead {args : Entries} (known' : m ∈ plan.tree.nodes) (ahead : plan.tree.Ahead n m)
    (split : w.notes = later ++ (run, .called m.head args) :: earlier) :
    (run, .completed n.head r payload) ∈ earlier := by
  obtain ⟨v, v', last, recent, before, -, noting, rfl⟩ := reached.moment _ split
  obtain ⟨running, comes⟩ := noting.calls before compiled known' (List.mem_append_right _ List.mem_cons_self)
  exact comes.has_completed reached compiled declares known completed running ahead split

theorem not_exclusive (known' : m ∈ plan.tree.nodes) (completed' : (run, .completed m.head r' payload') ∈ w.notes) :
    ¬ plan.tree.Exclusive n m := by
  have comes := (reached.stood_of_completed compiled known completed).comes compiled
  have comes' := (reached.stood_of_completed compiled known' completed').comes compiled
  rintro ⟨o, mem, k, l, b, c, declared, declared', apart, within, within'⟩
  obtain ⟨r₁, payload₁, inner, there, selects⟩ := comes.owner compiled declares mem declared within
  obtain ⟨r₂, payload₂, inner', there', selects'⟩ := comes'.owner compiled declares mem declared' within'
  obtain ⟨rfl, -⟩ := reached.completed_once compiled there there'
  obtain ⟨rfl, -⟩ := selects.unique selects'
  exact apart (Key.same_iff.mpr rfl)

end

end World

end Conductor
