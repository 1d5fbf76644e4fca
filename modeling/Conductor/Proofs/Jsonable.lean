import Conductor.Value.Datum
import Conductor.Proofs.Branches

/-!
# What JSON can hold

JSON holds scalars, lists, and dictionaries whose keys are texts, and nothing else at any depth. Reducing a
finite datum gives data of this kind and leaves data of this kind as it is, so that a second reduction changes
nothing.
-/

namespace Conductor

def Atom.isScalar : Atom → Bool
  | .bytes _ | .object _ _ => false
  | _ => true

def Key.isText (k : Key) : Bool := k.text?.isSome

/-- Whether no two of some keys address the same entry. -/
def Key.apart (keys : List Key) : Bool := decide (keys.Pairwise fun k l => ¬ k.same l)

namespace Datum

mutual

/-- Whether JSON can hold a datum as it is. -/
def isJson : Datum → Bool
  | atom a => a.isScalar
  | list items => isJsonList items
  | dict entries => isJsonPairs entries
  | tuple _ | set _ _ | proxy _ | cycle _ => false

def isJsonList : List Datum → Bool
  | [] => true
  | d :: ds => isJson d && isJsonList ds

def isJsonPairs : List (Key × Datum) → Bool
  | [] => true
  | (k, d) :: rest => k.isText && isJson d && isJsonPairs rest

end

mutual

def isFinite : Datum → Bool
  | atom _ | set _ _ => true
  | list items | tuple items => isFiniteList items
  | dict entries | proxy entries => Key.apart (entries.map (·.1)) && isFinitePairs entries
  | cycle _ => false

def isFiniteList : List Datum → Bool
  | [] => true
  | d :: ds => isFinite d && isFiniteList ds

def isFinitePairs : List (Key × Datum) → Bool
  | [] => true
  | (_, d) :: rest => isFinite d && isFinitePairs rest

end

variable {d : Datum} {k : Key} {entries acc : List (Key × Datum)}

/-! ### Texts as keys -/

theorem text_of_isText (text : k.isText) : ∃ s, k = .ofText s := by
  obtain ⟨s, found⟩ := Option.isSome_iff_exists.mp text
  unfold Key.text? at found
  split at found
  · exact ⟨_, rfl⟩
  · cases found

/-! ### Pairs set one over the other -/

theorem insertPair_known (known : ∃ e ∈ acc, e.1.same k) :
    (insertPair acc k d).map (·.1) = acc.map (·.1) := by
  induction acc with
  | nil => simp at known
  | cons first rest ih =>
    rw [insertPair]
    split
    · rfl
    · rename_i other
      obtain ⟨e, member, same⟩ := known
      have inner : e ∈ rest := (List.mem_cons.mp member).resolve_left fun here => other (here ▸ same)
      rw [List.map_cons, ih ⟨e, inner, same⟩, List.map_cons]

theorem insertPair_fresh (fresh : ∀ e ∈ acc, ¬ e.1.same k) : insertPair acc k d = acc ++ [(k, d)] := by
  induction acc with
  | nil => rfl
  | cons first rest ih =>
    have other : ¬ first.1.same k := fresh first List.mem_cons_self
    rw [insertPair, if_neg other, ih fun e member => fresh e (List.mem_cons_of_mem _ member), List.cons_append]

/-- Whatever holds of the values before and of the value that is set holds of the values afterwards. -/
theorem insertPair_values {P : Datum → Prop} (before : ∀ e ∈ acc, P e.2) (now : P d) :
    ∀ e ∈ insertPair acc k d, P e.2 := by
  induction acc with
  | nil =>
    intro e member
    obtain rfl := List.mem_singleton.mp member
    exact now
  | cons first rest ih =>
    intro e member
    have rest' := ih fun e inner => before e (List.mem_cons_of_mem _ inner)
    rw [insertPair] at member
    split at member
    · rcases List.mem_cons.mp member with rfl | inner
      · exact now
      · exact before e (List.mem_cons_of_mem _ inner)
    · rcases List.mem_cons.mp member with rfl | inner
      · exact before _ List.mem_cons_self
      · exact rest' e inner

structure Reduced (acc : List (Key × Datum)) : Prop where
  texts : ∀ k ∈ acc.map (·.1), k.isText
  apart : (acc.map (·.1)).Pairwise fun k l => ¬ k.same l
  json : ∀ e ∈ acc, e.2.isJson
  finite : ∀ e ∈ acc, e.2.isFinite

theorem Reduced.nil : Reduced [] := ⟨by simp, .nil, by simp, by simp⟩

/-- A value set under a text keeps the pairs reduced: a known key stays, and a new one comes last. -/
theorem Reduced.insertPair (reduced : Reduced acc) (s : String) (json : d.isJson) (finite : d.isFinite) :
    Reduced (insertPair acc (.ofText s) d) := by
  have values : ∀ e ∈ Datum.insertPair acc (.ofText s) d, e.2.isJson :=
    insertPair_values (P := (·.isJson)) reduced.json json
  have values' : ∀ e ∈ Datum.insertPair acc (.ofText s) d, e.2.isFinite :=
    insertPair_values (P := (·.isFinite)) reduced.finite finite
  by_cases known : ∃ e ∈ acc, e.1.same (.ofText s)
  · have keys := insertPair_known (d := d) known
    exact ⟨keys ▸ reduced.texts, keys ▸ reduced.apart, values, values'⟩
  · have fresh : ∀ e ∈ acc, ¬ e.1.same (.ofText s) := by
      intro e member same
      exact known ⟨e, member, same⟩
    have keys : (Datum.insertPair acc (.ofText s) d).map (·.1) = acc.map (·.1) ++ [.ofText s] := by
      rw [insertPair_fresh fresh, List.map_append, List.map_singleton]
    refine ⟨?_, ?_, values, values'⟩
    · rw [keys]
      intro k member
      rcases List.mem_append.mp member with old | new
      · exact reduced.texts k old
      · obtain rfl := List.mem_singleton.mp new
        rfl
    · rw [keys, List.pairwise_append]
      refine ⟨reduced.apart, List.pairwise_singleton _ _, fun k old l new => ?_⟩
      obtain rfl := List.mem_singleton.mp new
      obtain ⟨e, member, rfl⟩ := List.mem_map.mp old
      exact fresh e member

theorem isJsonPairs_iff : isJsonPairs entries ↔ ∀ e ∈ entries, e.1.isText ∧ e.2.isJson := by
  induction entries with
  | nil => simp [isJsonPairs]
  | cons first rest ih => simp [isJsonPairs, ih]

theorem isFinitePairs_iff : isFinitePairs entries ↔ ∀ e ∈ entries, e.2.isFinite := by
  induction entries with
  | nil => simp [isFinitePairs]
  | cons first rest ih => simp [isFinitePairs, ih]

theorem Reduced.isJson (reduced : Reduced acc) : (dict acc).isJson := by
  rw [Datum.isJson, isJsonPairs_iff]
  intro e member
  exact ⟨reduced.texts e.1 (List.mem_map_of_mem member), reduced.json e member⟩

theorem Reduced.isFinite (reduced : Reduced acc) : (dict acc).isFinite := by
  rw [Datum.isFinite, Bool.and_eq_true, isFinitePairs_iff]
  exact ⟨decide_eq_true reduced.apart, reduced.finite⟩

/-! ### What a reduction gives -/

mutual

theorem toJsonableKey_holds : ∀ k : Key, (toJsonableKey k).isJson ∧ (toJsonableKey k).isFinite
  | .atom a => by cases a <;> exact ⟨rfl, rfl⟩
  | .tuple items => toJsonableKeys_holds items
  | .frozenset items => toJsonableKeys_holds items

theorem toJsonableKeys_holds : ∀ ks : List Key,
    isJsonList (toJsonableKeys ks) ∧ isFiniteList (toJsonableKeys ks)
  | [] => ⟨rfl, rfl⟩
  | k :: ks => by
    obtain ⟨json, finite⟩ := toJsonableKey_holds k
    obtain ⟨json', finite'⟩ := toJsonableKeys_holds ks
    exact ⟨Bool.and_eq_true_iff.mpr ⟨json, json'⟩, Bool.and_eq_true_iff.mpr ⟨finite, finite'⟩⟩

end

mutual

/-- What a finite datum is reduced to can be held by JSON, and is finite again. -/
theorem toJsonable_holds : ∀ d : Datum, d.isFinite → d.toJsonable.isJson ∧ d.toJsonable.isFinite
  | .atom a, _ => by cases a <;> exact ⟨rfl, rfl⟩
  | .list items, finite => toJsonableList_holds items finite
  | .tuple items, finite => toJsonableList_holds items finite
  | .set _ items, _ => toJsonableKeys_holds items
  | .dict entries, finite => by
    obtain ⟨-, finite⟩ := Bool.and_eq_true_iff.mp finite
    have reduced := toJsonablePairs_reduced entries [] finite .nil
    exact ⟨reduced.isJson, reduced.isFinite⟩
  | .proxy _, _ => ⟨rfl, rfl⟩

theorem toJsonableList_holds : ∀ ds : List Datum, isFiniteList ds →
    isJsonList (toJsonableList ds) ∧ isFiniteList (toJsonableList ds)
  | [], _ => ⟨rfl, rfl⟩
  | d :: ds, finite => by
    obtain ⟨first, rest⟩ := Bool.and_eq_true_iff.mp finite
    obtain ⟨json, finite⟩ := toJsonable_holds d first
    obtain ⟨json', finite'⟩ := toJsonableList_holds ds rest
    exact ⟨Bool.and_eq_true_iff.mpr ⟨json, json'⟩, Bool.and_eq_true_iff.mpr ⟨finite, finite'⟩⟩

theorem toJsonablePairs_reduced : ∀ entries acc : List (Key × Datum), isFinitePairs entries → Reduced acc →
    Reduced (toJsonablePairs acc entries)
  | [], _, _, reduced => reduced
  | (k, d) :: rest, acc, finite, reduced => by
    obtain ⟨first, others⟩ := Bool.and_eq_true_iff.mp finite
    obtain ⟨json, finite⟩ := toJsonable_holds d first
    exact toJsonablePairs_reduced rest _ others (reduced.insertPair k.asText json finite)

end

/-! ### What a reduction leaves as it is -/

mutual

theorem toJsonable_of_isJson : ∀ d : Datum, d.isJson → d.isFinite → d.toJsonable = d
  | .atom a, json, _ => by
    cases a with
    | bytes _ => cases json
    | object _ _ => cases json
    | _ => rfl
  | .list items, json, finite => by
    rw [toJsonable, toJsonableList_of_isJson items json finite]
  | .dict entries, json, finite => by
    obtain ⟨apart, finite⟩ := Bool.and_eq_true_iff.mp finite
    rw [toJsonable, toJsonablePairs_of_isJson entries [] json finite (of_decide_eq_true apart), List.nil_append]

theorem toJsonableList_of_isJson : ∀ ds : List Datum, isJsonList ds → isFiniteList ds → toJsonableList ds = ds
  | [], _, _ => rfl
  | d :: ds, json, finite => by
    obtain ⟨json, json'⟩ := Bool.and_eq_true_iff.mp json
    obtain ⟨finite, finite'⟩ := Bool.and_eq_true_iff.mp finite
    rw [toJsonableList, toJsonable_of_isJson d json finite, toJsonableList_of_isJson ds json' finite']

/-- Pairs with different texts as keys are set one after the other. -/
theorem toJsonablePairs_of_isJson : ∀ entries acc : List (Key × Datum), isJsonPairs entries → isFinitePairs entries →
    ((acc ++ entries).map (·.1)).Pairwise (fun k l => ¬ k.same l) → toJsonablePairs acc entries = acc ++ entries
  | [], acc, _, _, _ => by rw [toJsonablePairs, List.append_nil]
  | (k, d) :: rest, acc, json, finite, apart => by
    obtain ⟨first, others⟩ := Bool.and_eq_true_iff.mp json
    obtain ⟨text, value⟩ := Bool.and_eq_true_iff.mp first
    obtain ⟨ends, others'⟩ := Bool.and_eq_true_iff.mp finite
    obtain ⟨s, rfl⟩ := text_of_isText text
    have fresh : ∀ e ∈ acc, ¬ e.1.same (.ofText s) := by
      intro e member
      rw [List.map_append, List.pairwise_append] at apart
      exact apart.2.2 e.1 (List.mem_map_of_mem member) _ List.mem_cons_self
    have placed : insertPair acc (.ofText (Key.ofText s).asText) d = acc ++ [(.ofText s, d)] := insertPair_fresh fresh
    rw [toJsonablePairs, toJsonable_of_isJson d value ends, placed,
      toJsonablePairs_of_isJson rest _ others others' (by simpa using apart), List.append_assoc, List.singleton_append]

end

end Datum

end Conductor
