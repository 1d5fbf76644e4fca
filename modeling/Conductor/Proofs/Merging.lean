import Conductor.Proofs.Agreement
import Conductor.Proofs.Jsonable

/-!
# Merging mappings

A merge goes through the keys of its source and sets each on its target, reading the source as it then stands.
The source may be the target, or show it: a turn writes what the source has already, so that nothing is read that
was not there at the start. What a merge leaves is therefore decided by the entries alone, and merging mappings one
after the other is merging what they make together.
-/

namespace Conductor

namespace Entries

variable {t a b rest : Entries} {k l : Key} {v w : Value}

theorem keys_cons {e : Key × Value} : keys (e :: rest) = e.1 :: keys rest := rfl

theorem apart_cons {e : Key × Value} :
    Key.apart (keys (e :: rest)) ↔ (∀ l ∈ keys rest, ¬ e.1.same l) ∧ Key.apart (keys rest) := by
  simp [Key.apart, keys_cons]

/-! ### Setting one key -/

theorem contains_eq_isSome : t.contains k = (t.get? k).isSome := by
  rw [contains, get?, Option.isSome_map, Bool.eq_iff_iff, List.find?_isSome, List.any_eq_true]

theorem contains_iff : t.contains k ↔ ∃ l ∈ t.keys, l.same k := by
  simp [contains, keys]

theorem contains_insert : (insert t k v).contains l = (k.same l || t.contains l) := by
  rw [contains_eq_isSome, get?_insert, contains_eq_isSome]
  by_cases same : k.same l <;> simp [same]

theorem keys_insert_of_contains (known : t.contains k) : (insert t k v).keys = t.keys := by
  induction t with
  | nil => cases known
  | cons e rest ih =>
    obtain ⟨k', v'⟩ := e
    rw [insert]
    split
    · rfl
    · rename_i other
      have inner : contains rest k := by simpa [contains, other] using known
      rw [keys, List.map_cons, ← keys, ih inner]
      rfl

theorem insert_of_not_contains (fresh : ¬ t.contains k) : insert t k v = t ++ [(k, v)] := by
  induction t with
  | nil => rfl
  | cons e rest ih =>
    simp only [contains, List.any_cons, Bool.or_eq_true, not_or] at fresh
    rw [insert, if_neg fresh.1, ih (by simpa [contains] using fresh.2), List.cons_append]

theorem insert_insert (same : l.same k) : insert (insert t l w) k v = insert t l v := by
  induction t with
  | nil => simp [insert, same]
  | cons e rest ih =>
    obtain ⟨m, u⟩ := e
    have swapped : m.same l = m.same k := by
      rw [Bool.eq_iff_iff, Key.same_iff, Key.same_iff, Key.same_iff.mp same]
    by_cases here : m.same l
    · simp [insert, here, ← swapped]
    · simp [insert, here, ← swapped, ih]

theorem insert_comm (known : t.contains k) (apart : ¬ k.same l) :
    insert (insert t l w) k v = insert (insert t k v) l w := by
  induction t with
  | nil => cases known
  | cons e rest ih =>
    obtain ⟨m, u⟩ := e
    by_cases here : m.same k
    · have other : ¬ m.same l := fun there => apart ((Key.same_congr here).mp there)
      simp [insert, here, other]
    · have inner : contains rest k := by simpa [contains, here] using known
      by_cases there : m.same l
      · simp [insert, here, there]
      · simp [insert, here, there, ih inner]

theorem insert_of_mem (keyed : Key.apart t.keys) (member : (k, v) ∈ t) : insert t k v = t := by
  induction t with
  | nil => cases member
  | cons e rest ih =>
    obtain ⟨m, u⟩ := e
    obtain ⟨others, keyed⟩ := apart_cons.mp keyed
    rcases List.mem_cons.mp member with here | inner
    · obtain ⟨rfl, rfl⟩ := Prod.mk.inj here
      rw [insert, if_pos (Key.same_refl k)]
    · rw [insert, if_neg (others k (List.mem_map_of_mem inner)), ih keyed inner]

theorem get?_of_mem (keyed : Key.apart t.keys) (member : (k, v) ∈ t) : t.get? k = some v := by
  rw [← insert_of_mem keyed member, get?_insert, if_pos (Key.same_refl k)]

theorem apart_insert (keyed : Key.apart t.keys) : Key.apart (insert t k v).keys := by
  by_cases known : t.contains k
  · rw [keys_insert_of_contains known]
    exact keyed
  · have fresh : ∀ l ∈ t.keys, ¬ l.same k := fun l member same => known (contains_iff.mpr ⟨l, member, same⟩)
    rw [insert_of_not_contains known, Key.apart, keys, List.map_append, ← keys]
    refine decide_eq_true (List.pairwise_append.mpr ⟨of_decide_eq_true keyed, List.pairwise_singleton _ _, ?_⟩)
    simpa using fresh

/-! ### Merging -/

theorem apart_merge (keyed : Key.apart t.keys) : Key.apart (t.merge a).keys := by
  induction a generalizing t with
  | nil => exact keyed
  | cons e rest ih => exact ih (apart_insert keyed)

theorem keys_merge_eq (keyed : Key.apart a.keys) :
    (t.merge a).keys = t.keys ++ a.keys.filter fun k => !t.contains k := by
  induction a generalizing t with
  | nil => simp [merge, keys]
  | cons e rest ih =>
    obtain ⟨k, v⟩ := e
    obtain ⟨others, keyed⟩ := apart_cons.mp keyed
    have unaffected : (keys rest).filter (fun l => !(insert t k v).contains l) =
        (keys rest).filter fun l => !t.contains l := by
      refine List.filter_congr fun l member => ?_
      rw [contains_insert, Bool.eq_false_iff.mpr (others l member), Bool.false_or]
    rw [merge, List.foldl_cons, ← merge, ih keyed, unaffected, keys_cons]
    by_cases known : t.contains k
    · rw [keys_insert_of_contains known, List.filter_cons_of_neg (by simp [known])]
    · rw [insert_of_not_contains known, List.filter_cons_of_pos (by simp [known])]
      simp [keys]

theorem get?_reverse (keyed : Key.apart a.keys) : get? a.reverse k = a.get? k := by
  induction a with
  | nil => rfl
  | cons e rest ih =>
    obtain ⟨l, v⟩ := e
    obtain ⟨others, keyed⟩ := apart_cons.mp keyed
    rw [List.reverse_cons, get?_append, ih keyed]
    by_cases here : l.same k
    · have absent : get? rest k = none := by
        refine Option.eq_none_iff_forall_ne_some.mpr fun u found => ?_
        have known : contains rest k := by rw [contains_eq_isSome, found, Option.isSome_some]
        obtain ⟨m, member, same⟩ := contains_iff.mp known
        exact others m member (Key.same_iff.mpr ((Key.same_iff.mp here).trans (Key.same_iff.mp same).symm))
      rw [absent]
      simp [get?, here]
    · simp [get?, here]

/-- Setting a key that is known is the same before and after a merge that does not set it. -/
theorem insert_merge (known : t.contains k) (apart : ∀ l ∈ a.keys, ¬ k.same l) :
    insert (t.merge a) k v = (insert t k v).merge a := by
  induction a generalizing t with
  | nil => rfl
  | cons e rest ih =>
    obtain ⟨l, w⟩ := e
    obtain ⟨other, apart⟩ := List.forall_mem_cons.mp apart
    have known' : (insert t l w).contains k := by rw [contains_insert, known, Bool.or_true]
    rw [merge, List.foldl_cons, ← merge, ih known' apart, insert_comm known other]
    rfl

theorem merge_insert (keyed : Key.apart a.keys) : t.merge (insert a k v) = insert (t.merge a) k v := by
  induction a generalizing t with
  | nil => rfl
  | cons e rest ih =>
    obtain ⟨l, w⟩ := e
    obtain ⟨others, keyed⟩ := apart_cons.mp keyed
    rw [insert]
    split
    · rename_i same
      have known : (insert t l w).contains k := by rw [contains_insert, same, Bool.true_or]
      have apart : ∀ m ∈ keys rest, ¬ k.same m := fun m member same' =>
        others m member ((Key.same_congr same).mpr same')
      calc t.merge ((l, v) :: rest)
        _ = (insert (insert t l w) k v).merge rest := by rw [insert_insert same]; rfl
        _ = insert ((insert t l w).merge rest) k v := (insert_merge known apart).symm
    · exact ih keyed

/-- A merge of what two mappings make together is a merge of the one and then of the other. -/
theorem merge_assoc (keyed : Key.apart a.keys) : (t.merge a).merge b = t.merge (a.merge b) := by
  induction b generalizing a with
  | nil => rfl
  | cons e rest ih =>
    calc (t.merge a).merge (e :: rest)
      _ = (insert (t.merge a) e.1 e.2).merge rest := rfl
      _ = (t.merge (insert a e.1 e.2)).merge rest := by rw [merge_insert keyed]
      _ = t.merge ((insert a e.1 e.2).merge rest) := ih (apart_insert keyed)

theorem merge_of_subset (keyed : Key.apart t.keys) (subset : a ⊆ t) : t.merge a = t := by
  induction a with
  | nil => rfl
  | cons e rest ih =>
    obtain ⟨here, others⟩ := List.cons_subset.mp subset
    rw [merge, List.foldl_cons, ← merge, insert_of_mem keyed here, ih others]

theorem merge_merge (keyed : Key.apart a.keys) : (t.merge a).merge a = t.merge a := by
  rw [merge_assoc keyed, merge_of_subset keyed (List.Subset.refl a)]

end Entries

/-! ### Sources -/

/-- What a merge can be given: a value, or a read-only view of a dictionary, which shows it as it stands. -/
inductive Source where
  | value (v : Value)
  | view (r : DictRef)

namespace Source

def subject : Source → Value
  | value v => v
  | view r => .dict r

def entries (h : Heap) (s : Source) : Entries := (h.mapping? s.subject).getD []

/-- The next key of a walk that began with `size` keys and has `left` of them to come: none at the end. If the
source has grown or shrunk since it began, the walk cannot go on. -/
def next (h : Heap) (s : Source) (size left : Nat) : Except Fault (Option Key) :=
  let keys := (s.entries h).keys
  if keys.length = size then .ok keys[size - left]?
  else .error (.raised "RuntimeError" (some "dictionary changed size during iteration"))

/-- Whether a source is one that a heap can have: its dictionary is there, and it has no key twice. -/
structure IsSound (h : Heap) (s : Source) : Prop where
  known : ∀ r, s.subject = .dict r → r.index < h.dicts.size
  keyed : Key.apart (s.entries h).keys

end Source

namespace Heap

/-- Sets on a dictionary what a source now has under a key. -/
def copyKey (h : Heap) (target : DictRef) (s : Source) (k : Key) : Except Fault Heap := do
  let v ← h.item s.subject (.ofKey k)
  h.setItem (.dict target) (.ofKey k) v

/-- The rest of a walk through a source that began with `size` keys, of which `left` are to come. Each is copied in
its turn, and what earlier turns have written can be read in a later one. -/
def copyKeys (target : DictRef) (s : Source) (size : Nat) : Nat → Heap → Except Fault Unit × Heap
  | 0, h => ((s.next h size 0).map fun _ => (), h)
  | left + 1, h =>
    match s.next h size (left + 1) with
    | .error f => (.error f, h)
    | .ok none => (.ok (), h)
    | .ok (some k) =>
      match h.copyKey target s k with
      | .error f => (.error f, h)
      | .ok h => copyKeys target s size left h

/-- A merge turn by turn, with the heap that it leaves. -/
def mergeFrom (h : Heap) (target : DictRef) (s : Source) : Except Fault Unit × Heap :=
  match s.subject with
  | .atom .null => (.ok (), h)
  | subject =>
    match h.mapping? subject with
    | some entries => copyKeys target s entries.length entries.length h
    | none => (.error (.payloadNotMapping subject.typeName), h)

variable {h h₁ h₂ : Heap} {t r : DictRef} {s a b : Source} {k : Key} {v : Value} {entries before rest : Entries}

/-! ### One turn -/

theorem toKey?_ofKey (k : Key) : (Value.ofKey k).toKey? = .ok k := by
  induction k using Key.induct with
  | atom a => rfl
  | tuple xs ih =>
    have items : Value.toKeys? (Value.ofKeys xs) = .ok xs := by
      induction xs with
      | nil => rfl
      | cons x xs others =>
        obtain ⟨first, ih⟩ := List.forall_mem_cons.mp ih
        rw [Value.ofKeys, Value.toKeys?, first, others ih]
        rfl
    rw [Value.ofKey, Value.toKey?, items]
    rfl
  | frozenset xs ih => rfl

theorem keyOf_ofKey (k : Key) : Template.keyOf (.ofKey k) = .ok k := by
  rw [Template.keyOf, toKey?_ofKey]

theorem copyKey_of_mem (keyed : Key.apart (s.entries h).keys) (member : (k, v) ∈ s.entries h) :
    h.copyKey t s k = .ok (h.setDict t ((h.dict t).insert k v)) := by
  have found := Entries.get?_of_mem keyed member
  unfold Source.entries at found member
  cases mapping : h.mapping? s.subject with
  | none => simp [mapping] at member
  | some entries =>
    rw [mapping, Option.getD_some] at found
    have read : h.item s.subject (.ofKey k) = .ok v := by
      simp [item, mapping, keyOf_ofKey, bind, Except.bind, found, pure, Except.pure]
    simp [copyKey, read, setItem, keyOf_ofKey, bind, Except.bind, pure, Except.pure]

/-- A source that is not the dictionary that is written, or into which the same is written again, stays. -/
theorem entries_setDict (known : t.index < h.dicts.size) (kept : s.subject = .dict t → entries = h.dict t) :
    s.entries (h.setDict t entries) = s.entries h := by
  unfold Source.entries
  cases subject : s.subject with
  | dict r =>
    by_cases own : r = t
    · subst own
      simp only [mapping?, dict_setDict_self known, kept subject]
    · simp only [mapping?, dict_setDict_other own]
  | _ => rfl

/-- A turn leaves its source as it is, even a source that is the target. -/
theorem entries_insert (known : t.index < h.dicts.size) (keyed : Key.apart (s.entries h).keys)
    (member : (k, v) ∈ s.entries h) : s.entries (h.setDict t ((h.dict t).insert k v)) = s.entries h := by
  refine entries_setDict known fun own => ?_
  have itself : s.entries h = h.dict t := by rw [Source.entries, own]; rfl
  rw [itself] at keyed member
  exact Entries.insert_of_mem keyed member

/-! ### The whole walk -/

theorem next_append (split : s.entries h = before ++ (k, v) :: rest) :
    s.next h (s.entries h).length (rest.length + 1) = .ok (some k) := by
  have place : (s.entries h).length - (rest.length + 1) = before.length := by
    rw [split, List.length_append, List.length_cons, Nat.add_sub_cancel]
  rw [Source.next, Entries.keys, List.length_map, if_pos rfl, place, split]
  simp

theorem copyKeys_eq (known : t.index < h.dicts.size) (keyed : Key.apart (s.entries h).keys)
    (split : s.entries h = before ++ rest) :
    copyKeys t s (s.entries h).length rest.length h = (.ok (), h.setDict t ((h.dict t).merge rest)) := by
  induction rest generalizing h before with
  | nil =>
    have ends : h.setDict t ((h.dict t).merge []) = h := setDict_dict
    rw [List.length_nil, copyKeys, ends, Source.next, Entries.keys, List.length_map, if_pos rfl]
    rfl
  | cons e rest ih =>
    obtain ⟨k, v⟩ := e
    have member : (k, v) ∈ s.entries h := by simp [split]
    let h₁ := h.setDict t ((h.dict t).insert k v)
    have stays : s.entries h₁ = s.entries h := entries_insert known keyed member
    have known₁ : t.index < h₁.dicts.size := (size_setDict _).symm ▸ known
    have split₁ : s.entries h₁ = (before ++ [(k, v)]) ++ rest := by simp [stays, split]
    have others := ih known₁ (stays ▸ keyed) split₁
    rw [stays, dict_setDict_self known, setDict_setDict] at others
    rw [List.length_cons, copyKeys, next_append split]
    simp only [copyKey_of_mem keyed member]
    exact others

/-- A merge from a mapping, or from nothing, writes the entries of its source over those of its target. -/
theorem mergeFrom_eq (known : t.index < h.dicts.size) (mergeable : s.subject.isMergeable)
    (keyed : Key.apart (s.entries h).keys) :
    h.mergeFrom t s = (.ok (), h.setDict t ((h.dict t).merge (s.entries h))) := by
  have walk := copyKeys_eq known keyed (List.nil_append (s.entries h)).symm
  unfold mergeFrom
  unfold Source.entries at walk ⊢
  generalize subject : s.subject = v at walk mergeable ⊢
  cases v with
  | atom a =>
    cases a with
    | null => exact congrArg _ setDict_dict.symm
    | _ => cases mergeable
  | dict r => exact walk
  | proxy entries => exact walk
  | _ => cases mergeable

theorem mergeFrom_of_not_isMergeable (refused : ¬ v.isMergeable) :
    h.mergeFrom t (.value v) = (.error (.payloadNotMapping v.typeName), h) ∧
      h.mergeInto (.dict t) v = (.error (.payloadNotMapping v.typeName), h) := by
  cases v with
  | atom a =>
    cases a with
    | null => exact absurd rfl refused
    | _ => exact ⟨rfl, rfl⟩
  | dict r => exact absurd rfl refused
  | proxy entries => exact absurd rfl refused
  | _ => exact ⟨rfl, rfl⟩

theorem merge_eq_mergeInto :
    h.merge t v = (h.mergeInto (.dict t) v).1.map fun _ => (h.mergeInto (.dict t) v).2 := by
  by_cases absent : v = .atom .null
  · subst absent
    rfl
  · rw [mergeInto]
    · cases h.merge t v <;> rfl
    · exact absent

/-- Going through a mapping turn by turn comes to the same as writing its entries at once. -/
theorem mergeFrom_value (known : t.index < h.dicts.size) (sound : v.isMergeable → (Source.value v).IsSound h) :
    h.mergeFrom t (.value v) = h.mergeInto (.dict t) v := by
  by_cases mergeable : v.isMergeable
  · rw [mergeFrom_eq (s := .value v) known mergeable (sound mergeable).keyed]
    cases v with
    | atom a =>
      cases a with
      | null => exact congrArg _ setDict_dict
      | _ => cases mergeable
    | dict r => rfl
    | proxy entries => rfl
    | _ => cases mergeable
  · obtain ⟨refused, refused'⟩ := mergeFrom_of_not_isMergeable (h := h) (t := t) mergeable
    rw [refused, refused']

/-! ### Sources of changed heaps -/

theorem isSound_setDict (sound : s.IsSound h) (known : t.index < h.dicts.size)
    (kept : s.subject = .dict t → entries = h.dict t) : s.IsSound (h.setDict t entries) where
  known r own := (size_setDict entries).symm ▸ sound.known r own
  keyed := (entries_setDict known kept).symm ▸ sound.keyed

theorem isSound_merged (target : (Source.view t).IsSound h) :
    (Source.view t).IsSound (h.setDict t ((h.dict t).merge entries)) where
  known r own := (size_setDict _).symm ▸ target.known r own
  keyed := by
    have written : (Source.view t).entries (h.setDict t ((h.dict t).merge entries)) = (h.dict t).merge entries :=
      dict_setDict_self (target.known t rfl)
    rw [written]
    exact Entries.apart_merge target.keyed

theorem entries_newDict (sound : s.IsSound h) : s.entries (h.newDict entries).2 = s.entries h := by
  unfold Source.entries
  cases subject : s.subject with
  | dict r => exact dict_newDict_other (sound.known r subject)
  | _ => rfl

theorem isSound_newDict (sound : s.IsSound h) : s.IsSound (h.newDict entries).2 where
  known r own := by
    have known := sound.known r own
    simp only [newDict, Array.size_push]
    omega
  keyed := (entries_newDict sound).symm ▸ sound.keyed

theorem isSound_copy (keyed : Key.apart entries.keys) :
    (Source.view (h.newDict entries).1).IsSound (h.newDict entries).2 where
  known r own := by
    obtain rfl := Value.dict.inj own
    simp [newDict]
  keyed := by
    have copied : (Source.view (h.newDict entries).1).entries (h.newDict entries).2 = entries := dict_newDict_self
    rw [copied]
    exact keyed

/-! ### What a merge leaves -/

/-- Whether a merge ends well with a heap that differs in the target only, where the keys of the target stay in
front, in their order and form, the new keys of the source follow in theirs, and a key of the source has its
value from there. -/
structure Merged (h : Heap) (t : DictRef) (s : Source) (h₁ : Heap) : Prop where
  done : h.mergeFrom t s = (.ok (), h₁)
  target : (Source.view t).IsSound h₁
  only : h₁ = h.setDict t (h₁.dict t)
  source : s.entries h₁ = s.entries h
  keys : (h₁.dict t).keys = (h.dict t).keys ++ (s.entries h).keys.filter fun k => !(h.dict t).contains k
  values : ∀ k, (h₁.dict t).get? k = ((s.entries h).get? k).or ((h.dict t).get? k)

section Sound

variable (target : (Source.view t).IsSound h) (mergeable : s.subject.isMergeable) (sound : s.IsSound h)

include target mergeable sound

theorem merged : h.Merged t s (h.setDict t ((h.dict t).merge (s.entries h))) := by
  have known := target.known t rfl
  have written : (h.setDict t ((h.dict t).merge (s.entries h))).dict t = (h.dict t).merge (s.entries h) :=
    dict_setDict_self known
  refine ⟨mergeFrom_eq known mergeable sound.keyed, isSound_merged target, by rw [written], ?_, ?_, fun k => ?_⟩
  · refine entries_setDict known fun own => ?_
    have itself : s.entries h = h.dict t := by rw [Source.entries, own]; rfl
    rw [itself]
    exact Entries.merge_of_subset target.keyed (List.Subset.refl _)
  · rw [written, Entries.keys_merge_eq sound.keyed]
  · rw [written, Entries.get?_merge, Entries.get?_reverse sound.keyed]

theorem mergeFrom_of_kept (kept : (h.dict t).merge (s.entries h) = h.dict t) : h.mergeFrom t s = (.ok (), h) := by
  rw [mergeFrom_eq (target.known t rfl) mergeable sound.keyed, kept, setDict_dict]

end Sound

/-- Merging into a target what two mappings make together in a copy of the first comes to the same as merging the
one after the other. -/
theorem merged_copy (target : (Source.view t).IsSound h) (mergeable : b.subject.isMergeable) (sound : b.IsSound h)
    (keyed : Key.apart entries.keys) :
    ∃ joined h₂, (h.newDict entries).2.Merged (h.newDict entries).1 b joined ∧
      joined.Merged t (.value (.dict (h.newDict entries).1)) h₂ ∧
      h₂.dict t = ((h.dict t).merge entries).merge (b.entries h) := by
  let c := (h.newDict entries).1
  let copy := (h.newDict entries).2
  let joined := copy.setDict c ((copy.dict c).merge (b.entries copy))
  have known : t.index < h.dicts.size := target.known t rfl
  have apart : t ≠ c := fun same => Nat.lt_irrefl _ (same ▸ known : c.index < h.dicts.size)
  have made : (Source.view c).IsSound copy := isSound_copy keyed
  have joins : copy.Merged c b joined := merged made mergeable (isSound_newDict sound)
  have joined_c : joined.dict c = entries.merge (b.entries h) := by
    rw [dict_setDict_self (made.known c rfl), entries_newDict sound, dict_newDict_self]
  have joined_t : joined.dict t = h.dict t := (dict_setDict_other apart).trans (dict_newDict_other known)
  have target' : (Source.view t).IsSound joined :=
    isSound_setDict (isSound_newDict target) (made.known c rfl) fun own => absurd (Value.dict.inj own) apart
  have sound' : (Source.view c).IsSound joined := isSound_merged made
  have merges := merged target' (s := .value (.dict c)) rfl ⟨sound'.known, sound'.keyed⟩
  refine ⟨joined, _, joins, merges, ?_⟩
  calc (joined.setDict t ((joined.dict t).merge (joined.dict c))).dict t
    _ = (joined.dict t).merge (joined.dict c) := dict_setDict_self (target'.known t rfl)
    _ = (h.dict t).merge (entries.merge (b.entries h)) := by rw [joined_t, joined_c]
    _ = ((h.dict t).merge entries).merge (b.entries h) := (Entries.merge_assoc keyed).symm

/-- What a merge has left is not changed by merging the same again, nothing, or the target itself. -/
theorem merged_again (target : (Source.view t).IsSound h) (mergeable : a.subject.isMergeable) (sound : a.IsSound h) :
    let h₁ := h.setDict t ((h.dict t).merge (a.entries h))
    ∀ s ∈ [a, .value .null, .value (.dict t), .view t], h₁.mergeFrom t s = (.ok (), h₁) := by
  intro h₁
  have stays : a.entries h₁ = a.entries h := (merged target mergeable sound).source
  have written : h₁.dict t = (h.dict t).merge (a.entries h) := dict_setDict_self (target.known t rfl)
  have target₁ : (Source.view t).IsSound h₁ := isSound_merged target
  have sound₁ : a.IsSound h₁ :=
    ⟨fun r own => (size_setDict _).symm ▸ sound.known r own, stays.symm ▸ sound.keyed⟩
  have again : (h₁.dict t).merge (a.entries h₁) = h₁.dict t := by
    rw [stays, written, Entries.merge_merge sound.keyed]
  have itself : (h₁.dict t).merge (h₁.dict t) = h₁.dict t :=
    Entries.merge_of_subset target₁.keyed (List.Subset.refl _)
  have same : h₁.mergeFrom t a = (.ok (), h₁) := mergeFrom_of_kept target₁ mergeable sound₁ again
  have own : h₁.mergeFrom t (.value (.dict t)) = (.ok (), h₁) :=
    mergeFrom_of_kept target₁ rfl ⟨target₁.known, target₁.keyed⟩ itself
  have seen : h₁.mergeFrom t (.view t) = (.ok (), h₁) := mergeFrom_of_kept target₁ rfl target₁ itself
  simp only [List.forall_mem_cons]
  exact ⟨same, rfl, own, seen, by simp⟩

/-- Merging is an action of the mappings on the dictionaries, in which a later mapping wins. Whatever mapping is
merged, or none, even one that shows the target itself, the merge goes through to its end, and to merge the same
again, nothing, or the target changes nothing more; to merge another one then leaves on the target what the two
make together in a copy of the first. Anything else is refused before anything is written. Going through a source
turn by turn comes to the same as writing its entries at once. -/
theorem merging_acts_on_dictionaries (target : (Source.view t).IsSound h) :
    (∀ a : Source, a.subject.isMergeable → a.IsSound h → ∃ h₁, h.Merged t a h₁ ∧
      (∀ s ∈ [a, .value .null, .value (.dict t), .view t], h₁.mergeFrom t s = (.ok (), h₁)) ∧
      ∀ b : Source, b.subject.isMergeable → b.IsSound h → b.subject ≠ .dict t →
        ∃ h₂ joined h₃, h₁.Merged t b h₂ ∧ b.entries h₂ = b.entries h ∧
          (h.newDict (a.entries h)).2.Merged (h.newDict (a.entries h)).1 b joined ∧
          joined.Merged t (.value (.dict (h.newDict (a.entries h)).1)) h₃ ∧ h₃.dict t = h₂.dict t) ∧
    (∀ v, ¬ v.isMergeable → (Fault.payloadNotMapping v.typeName).className = "TypeError" ∧
      h.mergeFrom t (.value v) = (.error (.payloadNotMapping v.typeName), h)) ∧
    ∀ v, (v.isMergeable → (Source.value v).IsSound h) → h.mergeInto (.dict t) v = h.mergeFrom t (.value v) ∧
      h.merge t v = (h.mergeFrom t (.value v)).1.map fun _ => (h.mergeFrom t (.value v)).2 := by
  have known : t.index < h.dicts.size := target.known t rfl
  refine ⟨fun a mergeable sound => ?_, fun v refused => ?_, fun v sound => ?_⟩
  · let h₁ := h.setDict t ((h.dict t).merge (a.entries h))
    have first : h.Merged t a h₁ := merged target mergeable sound
    have target₁ : (Source.view t).IsSound h₁ := isSound_merged target
    have written : h₁.dict t = (h.dict t).merge (a.entries h) := dict_setDict_self known
    refine ⟨h₁, first, merged_again target mergeable sound, fun b mergeable' sound' other => ?_⟩
    have sound₁ : b.IsSound h₁ := isSound_setDict sound' known fun own => absurd own other
    have stays : b.entries h₁ = b.entries h := entries_setDict known fun own => absurd own other
    have second := merged target₁ mergeable' sound₁
    obtain ⟨joined, h₃, joins, third, same⟩ := merged_copy target mergeable' sound' sound.keyed
    refine ⟨_, joined, h₃, second, second.source.trans stays, joins, third, ?_⟩
    rw [same, dict_setDict_self (target₁.known t rfl), written, stays]
  · exact ⟨rfl, (mergeFrom_of_not_isMergeable refused).1⟩
  · rw [mergeFrom_value known sound]
    exact ⟨rfl, merge_eq_mergeInto⟩

/-- A dictionary with two entries, and a second one with a set of the same members as key. -/
def shelves : Heap where
  lists := #[[.int 5]]
  dicts := #[
    [(.frozenset [.atom (.int 1), .ofText "x"], .text "old"), (.ofText "k", .int 1)],
    [(.frozenset [.ofText "x", .atom (.bool true)], .list ⟨0⟩), (.ofText "n", .null)]]

/-- A key keeps the form that it has first, and has the value that is merged last. -/
theorem earlier_key_keeps_form :
    ∃ h₁ h₂, shelves.Merged ⟨0⟩ (.view ⟨1⟩) h₁ ∧ h₁.Merged ⟨0⟩ (.value (.proxy [(.ofText "k", .int 2)])) h₂ ∧
      h₁.mergeFrom ⟨0⟩ (.view ⟨0⟩) = (.ok (), h₁) ∧
      (h₁.dict ⟨0⟩).keys = [.frozenset [.atom (.int 1), .ofText "x"], .ofText "k", .ofText "n"] ∧
      (h₁.dict ⟨0⟩).get? (.frozenset [.ofText "x", .atom (.int 1)]) = some (.list ⟨0⟩) ∧
      shelves.mergeInto (.dict ⟨0⟩) (.text "n") = (.error (.payloadNotMapping "str"), shelves) := by
  have target : (Source.view ⟨0⟩).IsSound shelves := by
    refine ⟨fun r own => ?_, by decide⟩
    obtain rfl := Value.dict.inj own
    decide
  have sound : (Source.view ⟨1⟩).IsSound shelves := by
    refine ⟨fun r own => ?_, by decide⟩
    obtain rfl := Value.dict.inj own
    decide
  have sound' : (Source.value (.proxy [(.ofText "k", .int 2)])).IsSound shelves :=
    ⟨fun _ own => (nomatch own), by decide⟩
  obtain ⟨merges, refuses, agrees⟩ := merging_acts_on_dictionaries target
  obtain ⟨h₁, first, again, others⟩ := merges (.view ⟨1⟩) rfl sound
  obtain ⟨h₂, -, -, second, -⟩ := others (.value (.proxy [(.ofText "k", .int 2)])) rfl sound' (by simp [Source.subject])
  refine ⟨h₁, h₂, first, second, again _ (by simp), first.keys.trans rfl, (first.values _).trans rfl, ?_⟩
  have refused : ¬ (Value.text "n").isMergeable := by decide
  rw [(agrees (.text "n") fun mergeable => absurd mergeable refused).1]
  exact (refuses (.text "n") refused).2

end Heap

end Conductor
