import Conductor.Proofs.Sequences
import Conductor.Proofs.Selection

/-!
# Entries that match

Where an entry stands, and whether as a member of a group, says nothing about what is in it. When one run is
done with entries that are the same in all other respects as the root entries of another run, and nodes
complete in both with the same outputs, then whatever the other run comes to is done in the first one.
-/

namespace Conductor

mutual

/-- What an entry is apart from the paths of its nodes and from how they are called. -/
def Entry.bare : Entry → Entry
  | .node head none => .node { head with path := [], isAsync := false } none
  | .node head (some routes) => .node { head with path := [], isAsync := false } (some (bareRoutes routes))
  | .nested entries => .nested (bareOf entries)

def bareOf : List Entry → List Entry
  | [] => []
  | e :: es => e.bare :: bareOf es

def bareRoutes : List (Key × Branch) → List (Key × Branch)
  | [] => []
  | (k, b) :: rest => (k, b.bare) :: bareRoutes rest

def Branch.bare : Branch → Branch
  | .list entries => .list (bareOf entries)
  | .raw item => .raw item

end

variable {e e' x : Entry} {n m : Node} {entries entries' inner : List Entry} {key declared : Key} {k : Nat}

@[simp] theorem bareOf_eq_map : bareOf entries = entries.map Entry.bare := by
  induction entries with
  | nil => rfl
  | cons e es ih => rw [bareOf, ih, List.map_cons]

@[simp] theorem bareRoutes_eq_map (routes : List (Key × Branch)) :
    bareRoutes routes = routes.map fun r => (r.1, r.2.bare) := by
  induction routes with
  | nil => rfl
  | cons r rest ih => rw [bareRoutes, ih, List.map_cons]

theorem Entry.bare_eq_nested (same : e.bare = (Entry.nested entries).bare) :
    ∃ entries', e = .nested entries' ∧ entries'.map Entry.bare = entries.map Entry.bare := by
  cases e with
  | node head outputs => cases outputs <;> simp [Entry.bare] at same
  | nested entries' => exact ⟨entries', rfl, by simpa [Entry.bare] using same⟩

/-- An entry that matches a node is one, with the same slot, whose outputs match. -/
theorem Entry.bare_eq_entry (same : e.bare = n.entry.bare) :
    ∃ m : Node, e = m.entry ∧ m.slot = n.slot ∧
      m.routes.map (fun r => (r.1, r.2.bare)) = n.routes.map fun r => (r.1, r.2.bare) := by
  obtain ⟨head', outputs'⟩ := n
  cases e with
  | nested entries => cases outputs' <;> simp [Entry.bare, Node.entry] at same
  | node head outputs =>
    refine ⟨⟨head, outputs⟩, rfl, ?_⟩
    cases outputs <;> cases outputs' <;> simp [Node.entry, Entry.bare] at same
    · exact ⟨same.1, rfl⟩
    · exact ⟨same.1.1, by simpa [Node.routes] using same.2⟩

theorem Node.route?_matched
    (same : m.routes.map (fun r => (r.1, r.2.bare)) = n.routes.map fun r => (r.1, r.2.bare))
    (route : n.route? key = some (declared, .list inner)) :
    ∃ inner', m.route? key = some (declared, .list inner') ∧ inner'.map Entry.bare = inner.map Entry.bare := by
  have found := congrArg (List.find? fun r : Key × Branch => r.1.same key) same
  rw [List.find?_map, List.find?_map] at found
  have route' : n.routes.find? ((fun r : Key × Branch => r.1.same key) ∘ fun r => (r.1, r.2.bare)) =
      some (declared, .list inner) := route
  rw [route'] at found
  obtain ⟨⟨k, b⟩, there, both⟩ := Option.map_eq_some_iff.mp found
  obtain ⟨rfl, branch⟩ := Prod.mk.inj both
  cases b with
  | raw item => simp [Branch.bare] at branch
  | list inner' => exact ⟨inner', there, by simpa [Branch.bare] using branch⟩

theorem matched_of_getElem? (same : entries'.map Entry.bare = entries.map Entry.bare) (found : entries[k]? = some e) :
    ∃ e', entries'[k]? = some e' ∧ e'.bare = e.bare := by
  have there := congrArg (·[k]?) same
  simp only [List.getElem?_map, found] at there
  exact Option.map_eq_some_iff.mp there

namespace World

variable {plan : Plan} {w w' : World} {run run' : RunId} {q : Path}

/-- Whether nodes complete in two runs with the same outputs. -/
def Concur (w : World) (run : RunId) (w' : World) (run' : RunId) : Prop :=
  ∀ h r payload h' r' payload', h.slot = h'.slot → (run, .completed h r payload) ∈ w.notes →
    (run', .completed h' r' payload') ∈ w'.notes → r.path = r'.path

def Matched (w : World) (run : RunId) (e : Entry) : Prop := ∃ e', e'.bare = e.bare ∧ w.Done run e'

theorem Done.matched (done : w.Done run e) : w.Matched run e := ⟨e, rfl, done⟩

/-- A run that is done with a nested list, up to paths, is done with its entries. -/
theorem Matched.step (done : w.Matched run (.nested entries)) (found : entries[k]? = some e) :
    w.Matched run e := by
  obtain ⟨x, same, done⟩ := done
  obtain ⟨entries', rfl, lists⟩ := Entry.bare_eq_nested same
  obtain ⟨e', there, bare⟩ := matched_of_getElem? lists found
  cases done with
  | nested all => exact ⟨e', bare, all e' (List.mem_of_getElem? there)⟩

theorem Matched.nested (all : ∀ e ∈ entries, w.Matched run e) : w.Matched run (.nested entries) := by
  suffices ∃ entries' : List Entry, entries'.map Entry.bare = entries.map Entry.bare ∧ ∀ e ∈ entries', w.Done run e by
    obtain ⟨entries', same, done⟩ := this
    exact ⟨.nested entries', by simp [Entry.bare, same], .nested done⟩
  induction entries with
  | nil => exact ⟨[], rfl, by simp⟩
  | cons e es ih =>
    obtain ⟨e', bare, done⟩ := all e List.mem_cons_self
    obtain ⟨es', same, rest⟩ := ih fun x member => all x (List.mem_cons_of_mem _ member)
    exact ⟨e' :: es', by simp [bare, same], List.forall_mem_cons.mpr ⟨done, rest⟩⟩

theorem Matched.completed (done : w.Matched run n.entry) :
    ∃ h r payload, h.slot = n.slot ∧ (run, .completed h r payload) ∈ w.notes := by
  obtain ⟨x, same, done⟩ := done
  obtain ⟨m, rfl, slot, -⟩ := Entry.bare_eq_entry same
  generalize own : m.entry = x at done
  cases done with
  | nested _ => cases own
  | plain m' r ran _ =>
    obtain rfl := Tree.entry_injective own
    obtain ⟨payload, completed⟩ := ran.completed
    exact ⟨_, r, payload, slot, completed⟩
  | branched m' r ran _ _ =>
    obtain rfl := Tree.entry_injective own
    obtain ⟨payload, completed⟩ := ran.completed
    exact ⟨_, r, payload, slot, completed⟩

/-- A run that is done with a node is done with what the node selects in a run that concurs. -/
theorem Matched.selected {r : Result} {payload : Entries} (concur : w.Concur run w' run')
    (completed : (run, .completed n.head r payload) ∈ w.notes) (selects : n.Selects r declared inner)
    (done : w'.Matched run' n.entry) (found : inner[k]? = some e) : w'.Matched run' e := by
  obtain ⟨x, same, done⟩ := done
  obtain ⟨m, rfl, slot, routes⟩ := Entry.bare_eq_entry same
  generalize own : m.entry = x at done
  cases done with
  | nested _ => cases own
  | plain m' r' ran null =>
    obtain rfl := Tree.entry_injective own
    obtain ⟨payload', completed'⟩ := ran.completed
    exact absurd ((concur _ _ _ _ _ _ slot.symm completed completed').trans null) selects.1
  | branched m' r' ran selects' all =>
    obtain rfl := Tree.entry_injective own
    obtain ⟨payload', completed'⟩ := ran.completed
    have path := concur _ _ _ _ _ _ slot.symm completed completed'
    obtain ⟨some, key, reported, route⟩ := selects
    obtain ⟨inner', route', lists⟩ := Node.route?_matched routes route
    obtain ⟨-, rfl⟩ := selects'.unique ⟨path ▸ some, key, path ▸ reported, route'⟩
    obtain ⟨e', there, bare⟩ := matched_of_getElem? lists found
    exact ⟨e', bare, all e' (List.mem_of_getElem? there)⟩

/-- Whatever a run comes to is done in another one that concurs with it, when the root entries are. -/
theorem Comes.matched (comes : Comes plan w run q e) (concur : w.Concur run w' run')
    (roots : ∀ x ∈ plan.tree.branches, w'.Matched run' x) : w'.Matched run' e := by
  induction comes with
  | root split _ => exact roots _ (split ▸ by simp)
  | member _ _ found ih => exact ih.step found
  | @inner p before rest e _ _ _ ih => exact ih.step (k := before.length) (by simp)
  | @selected n r payload declared before rest e _ completed selects _ ih =>
    exact ih.selected concur completed selects (k := before.length) (by simp)

end World

end Conductor
