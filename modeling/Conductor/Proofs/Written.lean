import Conductor.Proofs.Merging

/-!
# Written values

A mapping has a key once, however often the key is written. This holds of all that a value is made of when it is
written outside of scripts, at any depth, and of what is read of it.
-/

namespace Conductor

/-! ### Keys once at any depth -/

namespace Value

mutual

def isKeyed : Value → Bool
  | tuple items => isKeyedList items
  | proxy entries => Key.apart (entries.map (·.1)) && isKeyedPairs entries
  | atom _ | set _ _ | list _ | dict _ | store | completion _ _ => true

def isKeyedList : List Value → Bool
  | [] => true
  | v :: vs => isKeyed v && isKeyedList vs

def isKeyedPairs : List (Key × Value) → Bool
  | [] => true
  | (_, v) :: rest => isKeyed v && isKeyedPairs rest

end

end Value

namespace Datum

mutual

def isKeyed : Datum → Bool
  | list items | tuple items => isKeyedList items
  | dict entries | proxy entries => Key.apart (entries.map (·.1)) && isKeyedPairs entries
  | atom _ | set _ _ | cycle _ => true

def isKeyedList : List Datum → Bool
  | [] => true
  | d :: ds => isKeyed d && isKeyedList ds

def isKeyedPairs : List (Key × Datum) → Bool
  | [] => true
  | (_, d) :: rest => isKeyed d && isKeyedPairs rest

end

theorem isKeyedList_iff {ds : List Datum} : isKeyedList ds ↔ ∀ d ∈ ds, d.isKeyed := by
  induction ds with
  | nil => simp [isKeyedList]
  | cons d ds ih => simp [isKeyedList, ih]

theorem isKeyed_ofKey (k : Key) : (ofKey k).isKeyed := by
  induction k using Key.induct with
  | atom a => rfl
  | tuple xs ih =>
    rw [ofKey, isKeyed]
    induction xs with
    | nil => rfl
    | cons x xs others =>
      obtain ⟨first, ih⟩ := List.forall_mem_cons.mp ih
      rw [ofKeys, isKeyedList, first, others ih]
      rfl
  | frozenset xs _ => rfl

end Datum

/-! ### Heaps -/

namespace Heap

variable {h h' h₁ h₂ : Heap} {entries : Entries}

/-- Whether no dictionary of a heap, and no mapping that is held in it, has a key twice. -/
structure IsKeyed (h : Heap) : Prop where
  lists : ∀ items ∈ h.lists, Value.isKeyedList items
  dicts : ∀ entries ∈ h.dicts, Key.apart (Entries.keys entries) ∧ Value.isKeyedPairs entries

theorem IsKeyed.list (keyed : h.IsKeyed) (r : ListRef) : Value.isKeyedList (h.list r) := by
  unfold Heap.list
  cases found : h.lists[r.index]? with
  | none => rfl
  | some items => exact keyed.lists items (Array.mem_of_getElem? found)

theorem IsKeyed.dict (keyed : h.IsKeyed) (r : DictRef) :
    Key.apart (Entries.keys (h.dict r)) ∧ Value.isKeyedPairs (h.dict r) := by
  unfold Heap.dict
  cases found : h.dicts[r.index]? with
  | none => exact ⟨rfl, rfl⟩
  | some entries => exact keyed.dicts entries (Array.mem_of_getElem? found)

theorem readPairs_keys (fuel : Nat) (opened : List Place) (entries : Entries) :
    (h.readPairs fuel opened entries).map (·.1) = Entries.keys entries := by
  induction entries with
  | nil => simp [readPairs, Entries.keys]
  | cons e rest ih =>
    obtain ⟨k, v⟩ := e
    simpa [readPairs, Entries.keys] using ih

theorem isKeyed_readValue (keyed : h.IsKeyed) :
    (∀ fuel opened v, v.isKeyed → (h.readValue fuel opened v).isKeyed) ∧
    (∀ fuel opened entries, Value.isKeyedPairs entries → Datum.isKeyedPairs (h.readPairs fuel opened entries)) ∧
    (∀ fuel opened vs, Value.isKeyedList vs → Datum.isKeyedList (h.readValues fuel opened vs)) := by
  refine readValue.mutual_induct h _ _ _ ?atom ?tuple ?set ?proxy ?listSpent ?listOpened ?list ?dictSpent ?dictOpened
    ?dict ?store ?completion ?noPairs ?pairs ?noValues ?values
  case atom =>
    intro fuel opened a _
    rw [readValue, Datum.isKeyed]
  case tuple =>
    intro fuel opened items ih own
    rw [readValue, Datum.isKeyed]
    exact ih own
  case set =>
    intro fuel opened frozen items _
    rw [readValue, Datum.isKeyed]
  case proxy =>
    intro fuel opened entries ih own
    obtain ⟨apart, inner⟩ := Bool.and_eq_true_iff.mp own
    rw [readValue, Datum.isKeyed, readPairs_keys, ih inner, Bool.and_true]
    exact apart
  case listSpent =>
    intro opened r _
    rw [readValue, Datum.isKeyed]
  case listOpened =>
    intro opened r fuel within _
    rw [readValue, if_pos within, Datum.isKeyed]
  case list =>
    intro opened r fuel outside ih _
    rw [readValue, if_neg outside, Datum.isKeyed]
    exact ih (keyed.list r)
  case dictSpent =>
    intro opened r _
    rw [readValue, Datum.isKeyed]
  case dictOpened =>
    intro opened r fuel within _
    rw [readValue, if_pos within, Datum.isKeyed]
  case dict =>
    intro opened r fuel outside ih _
    obtain ⟨apart, inner⟩ := keyed.dict r
    rw [readValue, if_neg outside, Datum.isKeyed, readPairs_keys, ih inner, Bool.and_true]
    exact apart
  case store =>
    intro fuel opened _
    rw [readValue, Datum.isKeyed]
  case completion =>
    intro fuel opened policy id _
    rw [readValue, Datum.isKeyed]
  case noPairs =>
    intro fuel opened _
    rw [readPairs, Datum.isKeyedPairs]
  case pairs =>
    intro fuel opened k v rest ih ih' own
    obtain ⟨first, others⟩ := Bool.and_eq_true_iff.mp own
    rw [readPairs, Datum.isKeyedPairs, ih first, ih' others]
    rfl
  case noValues =>
    intro fuel opened _
    rw [readValues, Datum.isKeyedList]
  case values =>
    intro fuel opened v vs ih ih' own
    obtain ⟨first, others⟩ := Bool.and_eq_true_iff.mp own
    rw [readValues, Datum.isKeyedList, ih first, ih' others]
    rfl

theorem isKeyed_read {v : Value} (keyed : h.IsKeyed) (own : v.isKeyed) : (h.read v).isKeyed :=
  (isKeyed_readValue keyed).1 _ _ v own

structure Follows (h h' : Heap) : Prop where
  tokens : h.tokens ≤ h'.tokens
  keyed : h.IsKeyed → h'.IsKeyed

theorem Follows.refl (h : Heap) : Follows h h := ⟨Nat.le_refl _, id⟩

theorem Follows.trans (first : Follows h h₁) (rest : Follows h₁ h₂) : Follows h h₂ :=
  ⟨Nat.le_trans first.tokens rest.tokens, fun keyed => rest.keyed (first.keyed keyed)⟩

theorem Follows.newToken (h : Heap) : Follows h h.newToken.2 :=
  ⟨Nat.le_succ _, fun keyed => ⟨keyed.lists, keyed.dicts⟩⟩

theorem IsKeyed.newList {items : List Value} (keyed : h.IsKeyed) (own : Value.isKeyedList items) :
    (h.newList items).2.IsKeyed := by
  refine ⟨fun items' member => ?_, keyed.dicts⟩
  rcases Array.mem_push.mp member with old | rfl
  · exact keyed.lists items' old
  · exact own

theorem IsKeyed.newDict (keyed : h.IsKeyed) (apart : Key.apart (Entries.keys entries))
    (own : Value.isKeyedPairs entries) : (h.newDict entries).2.IsKeyed := by
  refine ⟨keyed.lists, fun entries' member => ?_⟩
  rcases Array.mem_push.mp member with old | rfl
  · exact keyed.dicts entries' old
  · exact ⟨apart, own⟩

end Heap

/-! ### Written values -/

namespace Template

theorem isKeyed_insert {entries : Entries} {k : Key} {v : Value} (own : Value.isKeyedPairs entries) (new : v.isKeyed) :
    Value.isKeyedPairs (entries.insert k v) := by
  induction entries with
  | nil => simp [Entries.insert, Value.isKeyedPairs, new]
  | cons e rest ih =>
    obtain ⟨k', v'⟩ := e
    obtain ⟨first, others⟩ := Bool.and_eq_true_iff.mp own
    rw [Entries.insert]
    split
    · rw [Value.isKeyedPairs, new, others]
      rfl
    · rw [Value.isKeyedPairs, first, ih others]
      rfl

theorem isKeyed_ofPairs {pairs : List (Key × Value)} (own : Value.isKeyedPairs pairs) :
    Key.apart (Entries.keys (Entries.ofPairs pairs)) ∧ Value.isKeyedPairs (Entries.ofPairs pairs) := by
  have merged (pairs acc : List (Key × Value)) (before : Value.isKeyedPairs acc) (own : Value.isKeyedPairs pairs) :
      Value.isKeyedPairs (Entries.merge acc pairs) := by
    induction pairs generalizing acc with
    | nil => exact before
    | cons e rest ih =>
      obtain ⟨first, others⟩ := Bool.and_eq_true_iff.mp own
      exact ih _ (isKeyed_insert before first) others
  exact ⟨Entries.apart_merge rfl, merged pairs [] rfl own⟩

/-- What making something leaves: a later heap, and something that is as it should be if keys were apart before. -/
structure Evaluates {α : Type} (P : α → Prop) (h : Heap) (x : Except Fault α × Heap) : Prop where
  follows : h.Follows x.2
  made : h.IsKeyed → ∀ v, x.1 = .ok v → P v

variable {α β : Type} {P : α → Prop} {h h₁ h₂ : Heap} {x : Except Fault α × Heap} {f : Fault} {v : α}

theorem Evaluates.failed (follows : h.Follows h₁) : Evaluates P h (.error f, h₁) :=
  ⟨follows, fun _ _ same => nomatch same⟩

theorem Evaluates.ok (follows : h.Follows h₁) (made : h.IsKeyed → P v) : Evaluates P h (.ok v, h₁) :=
  ⟨follows, fun keyed _ same => Except.ok.inj same ▸ made keyed⟩

/-- What is refused by one part is refused, with the heap of that part. -/
theorem Evaluates.refused {Q : β → Prop} (part : Evaluates P h (.error f, h₁)) : Evaluates Q h (.error f, h₁) :=
  .failed part.follows

mutual

/-- A value that is written outside of scripts is made with keys apart. -/
theorem eval_evaluates (t : Template) (h : Heap) : Evaluates (fun v : Value => v.isKeyed) h (eval {} t h) := by
  match t with
  | .null | .bool _ | .int _ | .float _ | .text _ | .bytes _ | .sharedArgs => exact .ok (.refl h) fun _ => rfl
  | .nan | .object _ => exact .ok (.newToken h) fun _ => rfl
  | .get _ _ | .increment _ => exact .failed (.refl h)
  | .list items =>
    have made := evalList_evaluates items h
    unfold eval
    split <;> rename_i h₁ same <;> rw [same] at made
    · exact made.refused
    · refine .ok ⟨made.follows.tokens, fun keyed => ?_⟩ fun _ => rfl
      exact (made.follows.keyed keyed).newList (made.made keyed _ rfl)
  | .tuple items =>
    have made := evalList_evaluates items h
    unfold eval
    split <;> rename_i h₁ same <;> rw [same] at made
    · exact made.refused
    · exact .ok made.follows fun keyed => made.made keyed _ rfl
  | .set frozen items =>
    have made := evalList_evaluates items h
    unfold eval
    split <;> rename_i h₁ same <;> rw [same] at made
    · exact made.refused
    · rename_i vs
      cases keys : keysOf vs with
      | error f => exact .failed made.follows
      | ok ks => exact .ok made.follows fun _ => rfl
  | .dict entries =>
    have made := evalPairs_evaluates entries h
    unfold eval
    split <;> rename_i h₁ same <;> rw [same] at made
    · exact made.refused
    · refine .ok ⟨made.follows.tokens, fun keyed => ?_⟩ fun _ => rfl
      obtain ⟨apart, own⟩ := isKeyed_ofPairs (made.made keyed _ rfl)
      exact (made.follows.keyed keyed).newDict apart own
  | .proxy entries =>
    have made := evalPairs_evaluates entries h
    unfold eval
    split <;> rename_i h₁ same <;> rw [same] at made
    · exact made.refused
    · refine .ok made.follows fun keyed => ?_
      obtain ⟨apart, own⟩ := isKeyed_ofPairs (made.made keyed _ rfl)
      rw [Value.isKeyed, own, Bool.and_true]
      exact apart

theorem evalList_evaluates (ts : List Template) (h : Heap) :
    Evaluates (fun vs => Value.isKeyedList vs) h (evalList {} ts h) := by
  match ts with
  | [] => exact .ok (.refl h) fun _ => rfl
  | t :: ts =>
    have made := eval_evaluates t h
    unfold evalList
    split <;> rename_i h₁ same <;> rw [same] at made
    · exact made.refused
    · have made' := evalList_evaluates ts h₁
      split <;> rename_i h₂ same' <;> rw [same'] at made'
      · exact .failed (made.follows.trans made'.follows)
      · refine .ok (made.follows.trans made'.follows) fun keyed => ?_
        rw [Value.isKeyedList, made.made keyed _ rfl, made'.made (made.follows.keyed keyed) _ rfl]
        rfl

theorem evalPairs_evaluates (pairs : List (Template × Template)) (h : Heap) :
    Evaluates (fun pairs => Value.isKeyedPairs pairs) h (evalPairs {} pairs h) := by
  match pairs with
  | [] => exact .ok (.refl h) fun _ => rfl
  | (k, v) :: rest =>
    have key := eval_evaluates k h
    unfold evalPairs
    split <;> rename_i h₁ same <;> rw [same] at key
    · exact key.refused
    · have value := eval_evaluates v h₁
      have both := key.follows.trans value.follows
      split <;> rename_i h₂ same' <;> rw [same'] at value both
      · exact .failed both
      · split
        · exact .failed both
        · have others := evalPairs_evaluates rest h₂
          split <;> rename_i h₃ same'' <;> rw [same''] at others
          · exact .failed (both.trans others.follows)
          · refine .ok (both.trans others.follows) fun keyed => ?_
            rw [Value.isKeyedPairs, value.made (key.follows.keyed keyed) _ rfl, others.made (both.keyed keyed) _ rfl]
            rfl

end

end Template

end Conductor
