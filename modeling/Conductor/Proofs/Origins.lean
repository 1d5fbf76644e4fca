import Conductor.Proofs.Making
import Conductor.Proofs.Occurrences
import Conductor.Proofs.Registration

/-!
# Graphs that are made

A graph that is made of a literal meets what is supposed of graphs elsewhere: the objects of its normal form, and
those that become nodes, are told apart, and every node declares each of its outputs once.
-/

namespace Conductor

namespace Graph

open Item Reading

variable {item graph : Item} {items pool : List Item} {t : Tree} {p : Nat → Nat → Prop} {w : Workshop} {l : Literal}

/-- The nodes that are compiled from mappings with keys apart declare each output once. -/
theorem apart_of_compile :
    (∀ path isAsync position items d, Keyed (Item.objectsOf items) →
      ∀ n ∈ nodesOf (compileList path isAsync position items d).1, Key.apart n.outputNames) ∧
    (∀ path outputs d, Keyed (Item.objectsOfPairs outputs) →
      ∀ n ∈ nodesOfRoutes (compileOutputs path outputs d).1, Key.apart n.outputNames) ∧
    (∀ path item d, Keyed item.objects → ∀ n ∈ (compileOutput path item d).1.nodes, Key.apart n.outputNames) := by
  refine compileList.mutual_induct _ _ _ ?listBehind ?tupleBehind ?raw ?nil ?list ?tuple ?owner ?leaf
    ?noOutputs ?output
  case listBehind | tupleBehind =>
    intro path items d entries d₁ same ih
    simp only [same] at ih
    simpa only [compileOutput, same, Branch.nodes, Item.objects] using ih
  case raw =>
    intro path item d other other' _ n member
    rw [compileOutput.eq_3 _ _ _ other other', Branch.nodes] at member
    cases member
  case nil =>
    intro path isAsync position d _ n member
    rw [compileList, nodesOf] at member
    cases member
  case list | tuple =>
    intro path isAsync position items rest d inner d₁ same entries d₂ same' ih ih' keyed n member
    simp only [same] at ih
    simp only [same'] at ih'
    simp only [compileList, same, same', nodesOf, Entry.nodes] at member
    rw [Item.objectsOf, Item.objects] at keyed
    rcases List.mem_append.mp member with here | later
    · exact ih (keyed.subset (List.subset_append_left _ _)) n here
    · exact ih' (keyed.subset (List.subset_append_right _ _)) n later
  case owner =>
    intro path isAsync position item id isProxy outputs rest d other other' head d₁ made routes d₂ same entries d₃ same'
      ih ih' keyed n member
    simp only [same] at ih
    simp only [same'] at ih'
    rw [compileList.eq_4 _ _ _ _ _ _ _ _ _ other other'] at member
    simp only [made, same, same', nodesOf, Entry.nodes] at member
    have outputsKeyed : Keyed (mapping id isProxy outputs :: Item.objectsOfPairs outputs ++ Item.objectsOf rest) := by
      rw [Item.objectsOf, Item.objectsOf, Item.objects] at keyed
      exact keyed.subset (List.subset_append_right _ _)
    have keys : routes.map (·.1) = outputs.map (·.1) := by
      rw [← compileOutputs_keys outputs d₁, same]
    rcases List.mem_append.mp member with here | later
    · rcases List.mem_cons.mp here with rfl | below
      · rw [Node.outputNames, Node.routes, Option.getD_some, keys]
        exact outputsKeyed id isProxy outputs (by simp)
      · exact ih (outputsKeyed.subset (by simp)) n below
    · exact ih' (outputsKeyed.subset (List.subset_append_right _ _)) n later
  case leaf =>
    intro path isAsync position item rest d other other' other'' head d₁ made entries d₂ same ih keyed n member
    simp only [same] at ih
    rw [compileList.eq_5 _ _ _ _ _ _ other other' other''] at member
    simp only [made, same, nodesOf, Entry.nodes] at member
    rw [Item.objectsOf] at keyed
    rcases List.mem_append.mp member with here | later
    · obtain rfl := List.mem_singleton.mp here
      rfl
    · exact ih (keyed.subset (List.subset_append_right _ _)) n later
  case noOutputs =>
    intro path d _ n member
    rw [compileOutputs, nodesOfRoutes] at member
    cases member
  case output =>
    intro path k item rest d branch d₁ same routes d₂ same' ih ih' keyed n member
    simp only [same] at ih
    simp only [same'] at ih'
    simp only [compileOutputs, same, same', nodesOfRoutes] at member
    rw [Item.objectsOfPairs] at keyed
    rcases List.mem_append.mp member with here | later
    · exact ih (keyed.subset (List.subset_append_left _ _)) n here
    · exact ih' (keyed.subset (List.subset_append_right _ _)) n later

theorem subset_append {xs ys zs us : List Item} (first : xs ⊆ zs) (rest : ys ⊆ us) : xs ++ ys ⊆ zs ++ us :=
  List.append_subset.mpr ⟨List.subset_append_of_subset_left us first, List.subset_append_of_subset_right zs rest⟩

theorem objectsOf_normal :
    (∀ owned items, Reading.objectsOf (normalFrom owned items) ⊆ Item.objectsOf items) ∧
    (∀ outputs, Reading.objectsOfPairs (normalOutputs outputs) ⊆ Item.objectsOfPairs outputs) ∧
    (∀ item : Item, (normalOutput item).objects ⊆ item.objects) := by
  refine normalFrom.mutual_induct _ _ _ ?listBehind ?tupleBehind ?raw ?nil ?list ?tuple ?outputs ?object ?leaf
    ?noOutputs ?output
  case listBehind | tupleBehind =>
    intro items ih
    simpa only [normalOutput, Reading.objects, Item.objects] using ih
  case raw =>
    intro item other other'
    rw [normalOutput_object other other', Reading.objects]
    cases item with
    | list items => exact (other _ rfl).elim
    | tuple items => exact (other' _ rfl).elim
    | mapping _ _ _ | leaf _ _ => simp [Item.objects]
  case nil =>
    intro owned
    simp [normalFrom, Reading.objectsOf]
  case list | tuple =>
    intro owned items rest ih ih'
    simp only [normalFrom, Reading.objectsOf, Reading.objects, Item.objectsOf, Item.objects]
    exact subset_append ih ih'
  case outputs =>
    intro id isProxy entries rest ih ih'
    simp only [normalFrom, if_true, Reading.objectsOf, Reading.objects, Item.objectsOf, Item.objects]
    exact subset_append (List.subset_cons_of_subset _ ih) ih'
  case object =>
    intro owned id isProxy entries rest other ih
    simp only [normalFrom, if_neg other, Reading.objectsOf, Reading.objects, Item.objectsOf, Item.objects]
    exact subset_append (by simp) ih
  case leaf =>
    intro owned id action rest ih
    simp only [normalFrom, Reading.objectsOf, Reading.objects, Item.objectsOf, Item.objects]
    exact subset_append (List.Subset.refl _) ih
  case noOutputs => simp [normalOutputs, Reading.objectsOfPairs]
  case output =>
    intro k item rest ih ih'
    simp only [normalOutputs, Reading.objectsOfPairs, Item.objectsOfPairs]
    exact subset_append ih ih'

theorem sources_subset :
    (∀ owned items, sourcesFrom owned items ⊆ Reading.objectsOf (normalFrom owned items)) ∧
    (∀ outputs, sourcesOfOutputs outputs ⊆ Reading.objectsOfPairs (normalOutputs outputs)) ∧
    (∀ item : Item, sourcesOfOutput item ⊆ (normalOutput item).objects) := by
  refine sourcesFrom.mutual_induct _ _ _ ?listBehind ?tupleBehind ?raw ?nil ?list ?tuple ?outputs ?object ?leaf
    ?noOutputs ?output
  case listBehind | tupleBehind =>
    intro items ih
    simpa only [sourcesOfOutput, normalOutput, Reading.objects] using ih
  case raw =>
    intro item other other'
    rw [sourcesOfOutput.eq_3 _ other other']
    exact List.nil_subset _
  case nil =>
    intro owned
    simp [sourcesFrom]
  case list | tuple =>
    intro owned items rest ih ih'
    simp only [sourcesFrom, normalFrom, Reading.objectsOf, Reading.objects]
    exact subset_append ih ih'
  case outputs =>
    intro id isProxy entries rest ih ih'
    simp only [sourcesFrom, normalFrom, if_true, Reading.objectsOf, Reading.objects]
    exact subset_append ih ih'
  case object =>
    intro owned id isProxy entries rest other ih
    simp only [sourcesFrom, normalFrom, if_neg other, Reading.objectsOf, Reading.objects, List.singleton_append]
    exact List.cons_subset_cons _ ih
  case leaf =>
    intro owned id action rest ih
    simp only [sourcesFrom, normalFrom, Reading.objectsOf, Reading.objects, List.singleton_append]
    exact List.cons_subset_cons _ ih
  case noOutputs => simp [sourcesOfOutputs]
  case output =>
    intro k item rest ih ih'
    simp only [sourcesOfOutputs, normalOutputs, Reading.objectsOfPairs]
    exact subset_append ih ih'

theorem stock_parts (id : Identity) {data : List Datum} (keyed : ∀ d ∈ data, d.isKeyed) :
    ∃ p, Stock p (Item.objectsOf (parts id data)) :=
  ⟨_, ((stock_ofDatum (token id)).2.2 1 data (Datum.isKeyedList_iff.mpr keyed)).2⟩

theorem stock_walk (stock : Stock p item.objects) (walked : item.walk = .ok items) :
    ∃ p, Stock p (Item.objectsOf items) := by
  cases item with
  | list items' | tuple items' =>
    obtain rfl := Except.ok.inj walked
    rw [Item.objects] at stock
    exact ⟨p, stock⟩
  | mapping id isProxy entries =>
    obtain rfl := Except.ok.inj walked
    refine stock_parts id ?_
    simp only [List.forall_mem_map]
    exact fun e _ => Datum.isKeyed_ofKey e.1
  | leaf id action =>
    cases action with
    | value d attributes =>
      cases d with
      | atom a =>
        cases a with
        | text s =>
          obtain rfl := Except.ok.inj walked
          exact stock_parts id (by simp [Datum.text, Datum.isKeyed])
        | bytes bs =>
          obtain rfl := Except.ok.inj walked
          exact stock_parts id (by simp [Datum.int, Datum.isKeyed])
        | _ => cases walked
      | set frozen keys =>
        obtain rfl := Except.ok.inj walked
        refine stock_parts id ?_
        simp only [List.forall_mem_map]
        exact fun k _ => Datum.isKeyed_ofKey k
      | _ => cases walked
    | _ => cases walked

/-- What is compiled from objects that are told apart declares each output once. -/
theorem declares_of_stock (stock : Stock p (Item.objectsOf items)) : (compileItems items).Declares :=
  fun n member => of_decide_eq_true (apart_of_compile.1 [] false 0 items {} stock.keyed n member)

/-- A graph that is made in a tidy workshop has its objects told apart, also as far as they become nodes, and is
compiled to nodes that declare each of their outputs once. -/
theorem made_graph (tidy : w.Tidy pool) (made : (w.make l).1 = .ok item) (walked : item.walk = .ok items) :
    ToldApart (Reading.objectsOf (normal items)) ∧ ToldApart (sources items) ∧ (compileItems items).Declares := by
  obtain ⟨pool', -, tidy', own⟩ := Workshop.make_makes l tidy
  obtain ⟨p, stock⟩ := stock_walk (tidy'.stock.subset (own item made)) walked
  have normal := stock.subset (objectsOf_normal.1 false items)
  exact ⟨normal.apart, (normal.subset (sources_subset.1 false items)).apart, declares_of_stock stock⟩

end Graph

end Conductor
