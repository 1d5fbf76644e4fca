import Conductor.Proofs.Ways

/-!
# Occurrences

A graph literal says by itself where actions occur in it and what they declare: a mapping directly after an action
belongs to it, and a value of the mapping leads on if it is a sequence. The compiled tree has one node for each
occurrence, at the place of the occurrence and with what the literal declares there.
-/

namespace Conductor

def Item.sequence? : Item → Option (List Item)
  | .list items | .tuple items => some items
  | _ => none

/-- What a list of a literal consists of: actions, with the mapping that belongs to them, and nested lists. -/
inductive Term where
  | action (outputs : Option (List (Key × Item)))
  | nested (items : List Item)

namespace Graph

/-- The terms of a list. A mapping belongs to the action directly before it, and is an action if there is none. -/
def terms : List Item → List Term
  | [] => []
  | .list items :: rest => .nested items :: terms rest
  | .tuple items :: rest => .nested items :: terms rest
  | _ :: .mapping _ _ outputs :: rest => .action (some outputs) :: terms rest
  | _ :: rest => .action none :: terms rest

def under (outputs : List (Key × Item)) (key : Key) : Option (Key × Item) := outputs.find? fun o => o.1.same key

/-- Where an output leads that an action declares with a mapping, if it does: to the items of a sequence, or nowhere,
with the key under which it is declared. -/
def leads (outputs : Option (List (Key × Item))) (key : Key) : Option (Key × Option (List Item)) :=
  (under (outputs.getD []) key).map fun o => (o.1, o.2.sequence?)

/-- The lists of a literal with their paths. -/
inductive ListAt (root : List Item) : Path → List Item → Prop where
  | root : ListAt root [] root
  | nested {path : Path} {items inner : List Item} {i : Nat} (outer : ListAt root path items)
      (there : (terms items)[i]? = some (.nested inner)) : ListAt root (path ++ [.entry i]) inner
  | output {path : Path} {items inner : List Item} {i : Nat} {outputs : List (Key × Item)} {key : Key} {value : Item}
      (outer : ListAt root path items) (there : (terms items)[i]? = some (.action (some outputs)))
      (found : under outputs key = some (key, value)) (list : value.sequence? = some inner) :
      ListAt root (path ++ [.entry i] ++ [.output key]) inner

/-- An occurrence of an action in a literal, with its path and the mapping that belongs to it. -/
def ActionAt (root : List Item) (path : Path) (outputs : Option (List (Key × Item))) : Prop :=
  ∃ (outer : Path) (items : List Item) (i : Nat), ListAt root outer items ∧
    (terms items)[i]? = some (.action outputs) ∧ path = outer ++ [.entry i]

variable {root items inner : List Item} {outputs : Option (List (Key × Item))} {path : Path} {key declared : Key}
  {value : Item} {i : Nat} {d : Draft} {isAsync : Bool}

/-! ### What is compiled from a mapping -/

theorem compileOutput_raw (raw : value.sequence? = none) : (compileOutput path value d).1 = .raw value := by
  cases value with
  | list items => cases raw
  | tuple items => cases raw
  | mapping id isProxy entries =>
    rw [compileOutput] <;>
    · intro items same
      cases same
  | leaf id action =>
    rw [compileOutput] <;>
    · intro items same
      cases same

theorem compileOutput_list (list : value.sequence? = some inner) :
    (compileOutput path value d).1 = .list (compileList path false 0 inner d).1 := by
  cases value with
  | list items =>
    obtain rfl := Option.some.inj list
    rw [compileOutput]
  | tuple items =>
    obtain rfl := Option.some.inj list
    rw [compileOutput]
  | mapping id isProxy entries => cases list
  | leaf id action => cases list

theorem compileOutputs_keys (os : List (Key × Item)) (d : Draft) :
    (compileOutputs path os d).1.map (·.1) = os.map (·.1) := by
  induction os generalizing d with
  | nil => rw [compileOutputs]; rfl
  | cons o rest ih =>
    rw [compileOutputs, List.map_cons, List.map_cons, ih]

theorem compileOutputs_none {os : List (Key × Item)} (missing : under os key = none) :
    (compileOutputs path os d).1.find? (fun route => route.1.same key) = none := by
  rw [List.find?_eq_none]
  intro route member same
  have known : route.1 ∈ os.map (·.1) := compileOutputs_keys os d ▸ List.mem_map_of_mem member
  obtain ⟨o, within, own⟩ := List.mem_map.mp known
  exact List.find?_eq_none.mp missing o within (by rwa [own])

/-- A key that a mapping has is that of the route that is compiled from its value. -/
theorem compileOutputs_some {os : List (Key × Item)} (found : under os key = some (declared, value)) (d : Draft) :
    ∃ d', (compileOutputs path os d).1.find? (fun route => route.1.same key)
      = some (declared, (compileOutput (path ++ [.output declared]) value d').1) := by
  induction os generalizing d with
  | nil => cases found
  | cons o rest ih =>
    obtain ⟨k, item⟩ := o
    rw [under, List.find?_cons] at found
    rw [compileOutputs]
    by_cases same : k.same key
    · simp only [same] at found
      obtain ⟨rfl, rfl⟩ := Prod.mk.inj (Option.some.inj found)
      exact ⟨d, List.find?_cons_of_pos same⟩
    · simp only [same] at found
      obtain ⟨d', later⟩ := ih found (compileOutput (path ++ [.output k]) item d).2
      refine ⟨d', ?_⟩
      rwa [List.find?_cons_of_neg (by simpa using same)]

/-! ### What is compiled from a list -/

inductive Renders (path : Path) : Term → Entry → Prop where
  | nested (items : List Item) (isAsync : Bool) (d : Draft) :
      Renders path (.nested items) (.nested (compileList path isAsync 0 items d).1)
  | action (outputs : Option (List (Key × Item))) {head : Head} (own : head.path = path) (d : Draft) :
      Renders path (.action outputs) (.node head (outputs.map fun os => (compileOutputs path os d).1))

theorem renders_of_terms (path : Path) (isAsync : Bool) (position : Nat) (d : Draft) {term : Term}
    (there : (terms items)[i]? = some term) : ∃ e, (compileList path isAsync position items d).1[i]? = some e ∧
    Renders (path ++ [.entry (position + i)]) term e := by
  -- the first entry is compiled from the first term, and the others from those of the rest
  have step {position : Nat} {first : Entry} {others : List Entry} {term' : Term} {later : List Term} {i : Nat}
      (there : (term' :: later)[i]? = some term) (head : Renders (path ++ [.entry position]) term' first)
      (rest : ∀ i, later[i]? = some term → ∃ e, others[i]? = some e ∧
        Renders (path ++ [.entry (position + 1 + i)]) term e) :
      ∃ e, (first :: others)[i]? = some e ∧ Renders (path ++ [.entry (position + i)]) term e := by
    cases i with
    | zero =>
      obtain rfl := Option.some.inj there
      exact ⟨first, rfl, head⟩
    | succ i =>
      obtain ⟨e, found, renders⟩ := rest i there
      rw [Nat.add_assoc, Nat.add_comm 1 i] at renders
      exact ⟨e, found, renders⟩
  induction items using terms.induct generalizing position d i with
  | case1 => cases there
  | case2 items rest ih =>
    rw [terms] at there
    rw [compileList]
    exact step there (.nested items _ _) fun i there => ih _ _ there
  | case3 items rest ih =>
    rw [terms] at there
    rw [compileList]
    exact step there (.nested items _ _) fun i there => ih _ _ there
  | case4 item id isProxy outputs rest other other' ih =>
    rw [terms.eq_4 _ _ _ _ _ other other'] at there
    rw [compileList.eq_4 _ _ _ _ _ _ _ _ _ other other']
    have own : (d.addNode item (path ++ [.entry position]) isAsync).1.path = path ++ [.entry position] := rfl
    simp only [own]
    exact step there (.action (some outputs) own _) fun i there => ih _ _ there
  | case5 item rest other other' other'' ih =>
    rw [terms.eq_5 _ _ other other' other''] at there
    rw [compileList.eq_5 _ _ _ _ _ _ other other' other'']
    have own : (d.addNode item (path ++ [.entry position]) isAsync).1.path = path ++ [.entry position] := rfl
    exact step there (.action none own d) fun i there => ih _ _ there

end Graph

namespace Tree

open Conductor.Graph

variable {t : Tree} {root items inner : List Item} {outputs : Option (List (Key × Item))} {path : Path}
  {key declared : Key} {value : Item} {i : Nat} {n : Node} {entries : List Entry} {e : Entry} {d : Draft}

/-- A list of a literal is compiled to a branch list or to a group at its path. -/
theorem entries_of_listAt (list : ListAt root path items) : ∃ isAsync d,
    ∀ (i : Nat) e, (compileList path isAsync 0 items d).1[i]? = some e →
      (compileItems root).EntryAt (path ++ [.entry i]) e := by
  induction list with
  | root => exact ⟨false, {}, fun i e found => .listed .root found⟩
  | @nested path items inner i outer there ih =>
    obtain ⟨isAsync, d, entryAt⟩ := ih
    obtain ⟨e, found, renders⟩ := renders_of_terms path isAsync 0 d there
    have here := entryAt i e found
    rw [Nat.zero_add] at renders
    cases renders with
    | nested _ isAsync' d' => exact ⟨isAsync', d', fun k e member => here.step member⟩
  | @output path items inner i outputs key value outer there found list ih =>
    obtain ⟨isAsync, d, entryAt⟩ := ih
    obtain ⟨e, found', renders⟩ := renders_of_terms path isAsync 0 d there
    have here := entryAt i e found'
    rw [Nat.zero_add] at renders
    cases renders with
    | @action _ head own d' =>
      have placed : (compileItems root).Places ⟨head, some (compileOutputs (path ++ [.entry i]) outputs d').1⟩ :=
        EntryAt.places (n := ⟨head, _⟩) here
      obtain ⟨d'', route⟩ := compileOutputs_some found d'
      rw [compileOutput_list list] at route
      have branch := placed.branchAt route
      rw [show Node.path ⟨head, _⟩ = path ++ [.entry i] from own] at branch
      exact ⟨false, d'', fun k e member => .listed branch member⟩

/-- Each occurrence of an action in a literal has a node at its path, with the outputs that it declares. -/
theorem node_of_actionAt (occurs : ActionAt root path outputs) : ∃ n d, (compileItems root).Places n ∧
    n.path = path ∧ n.outputs = outputs.map fun os => (compileOutputs path os d).1 := by
  obtain ⟨outer, items, i, list, there, rfl⟩ := occurs
  obtain ⟨isAsync, d, entryAt⟩ := entries_of_listAt list
  obtain ⟨e, found, renders⟩ := renders_of_terms outer isAsync 0 d there
  have here := entryAt i e found
  rw [Nat.zero_add] at renders
  cases renders with
  | @action _ head own d' => exact ⟨⟨head, _⟩, d', EntryAt.places (n := ⟨head, _⟩) here, own, rfl⟩

theorem Compiled.eq_of_path (compiled : t.Compiled) {n m : Node} (placed : t.Places n) (placed' : t.Places m)
    (same : n.path = m.path) : n = m :=
  entry_injective (compiled.entry_unique (same ▸ placed.entryAt compiled) (placed'.entryAt compiled))

/-- The node at the path of an occurrence has the outputs that the occurrence declares. -/
theorem outputs_of_actionAt (occurs : ActionAt root path outputs) (placed : (compileItems root).Places n)
    (own : n.path = path) : ∃ d, n.outputs = outputs.map fun os => (compileOutputs path os d).1 := by
  obtain ⟨m, d, placed', own', same⟩ := node_of_actionAt occurs
  obtain rfl := (compiled_compileItems root).eq_of_path placed placed' (own.trans own'.symm)
  exact ⟨d, same⟩

/-! ### Routes -/

section

variable (routes : n.outputs = outputs.map fun os => (compileOutputs path os d).1)
include routes

theorem outputNames_of_compile : n.outputNames = (outputs.getD []).map (·.1) := by
  rw [Node.outputNames, Node.routes, routes]
  cases outputs with
  | none => rfl
  | some os => exact compileOutputs_keys os d

theorem route?_of_under (found : under (outputs.getD []) key = some (declared, value)) :
    ∃ d', n.route? key = some (declared, (compileOutput (path ++ [.output declared]) value d').1) := by
  rw [Node.route?, Node.routes, routes]
  cases outputs with
  | none => cases found
  | some os => exact compileOutputs_some found d

theorem route?_undeclared (missing : leads outputs key = none) : n.route? key = none := by
  rw [Node.route?, Node.routes, routes]
  cases outputs with
  | none => rfl
  | some os => exact compileOutputs_none (Option.map_eq_none_iff.mp missing)

theorem route?_raw (raw : leads outputs key = some (declared, none)) :
    ∃ value, n.route? key = some (declared, .raw value) := by
  obtain ⟨⟨k, value⟩, found, same⟩ := Option.map_eq_some_iff.mp raw
  obtain ⟨rfl, none⟩ := Prod.mk.inj same
  obtain ⟨d', route⟩ := route?_of_under routes found
  exact ⟨value, by rw [route, compileOutput_raw none]⟩

theorem route?_list (list : leads outputs key = some (declared, some inner)) :
    ∃ d', n.route? key = some (declared, .list (compileList (path ++ [.output declared]) false 0 inner d').1) := by
  obtain ⟨⟨k, value⟩, found, same⟩ := Option.map_eq_some_iff.mp list
  obtain ⟨rfl, some⟩ := Prod.mk.inj same
  obtain ⟨d', route⟩ := route?_of_under routes found
  exact ⟨d', by rw [route, compileOutput_list some]⟩

end

end Tree

end Conductor
