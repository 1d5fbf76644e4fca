import Conductor.Value.Key
import Mathlib.Data.List.Forall2

/-!
# Keys that are the same

Being the same is an equivalence of keys: every key is the same as itself, and keys that are the same are the same
as the same others. So a key can be exchanged for one that it is the same as wherever only sameness counts.
-/

namespace Conductor

namespace Key

variable {k l m : Key} {xs ys : List Key}

theorem sameItems_iff : sameItems xs ys ↔ List.Forall₂ (fun x y => x.same y) xs ys := by
  induction xs generalizing ys with
  | nil => cases ys <;> simp [sameItems]
  | cons x xs ih => cases ys <;> simp [sameItems, ih]

theorem isWithin_iff : isWithin xs ys ↔ ∀ x ∈ xs, ∃ y ∈ ys, x.same y := by
  induction xs with
  | nil => simp [isWithin]
  | cons x xs ih => simp [isWithin, ih]

theorem isAmong_iff : isAmong xs k ↔ ∃ x ∈ xs, x.same k := by
  induction xs with
  | nil => simp [isAmong]
  | cons x xs ih => simp [isAmong, ih]

theorem same_tuple : (tuple xs).same (tuple ys) ↔ List.Forall₂ (fun x y => x.same y) xs ys := by
  rw [same, sameItems_iff]

theorem same_frozenset : (frozenset xs).same (frozenset ys) ↔
    (∀ x ∈ xs, ∃ y ∈ ys, x.same y) ∧ ∀ y ∈ ys, ∃ x ∈ xs, x.same y := by
  rw [same, Bool.and_eq_true, isWithin_iff, List.all_eq_true]
  simp only [isAmong_iff]

/-- What holds of a container of keys whenever it holds of its items holds of every key. -/
@[elab_as_elim]
theorem induct {P : Key → Prop} (atom : ∀ a, P (atom a)) (tuple : ∀ xs, (∀ x ∈ xs, P x) → P (tuple xs))
    (frozenset : ∀ xs, (∀ x ∈ xs, P x) → P (frozenset xs)) (k : Key) : P k :=
  @Key.rec P (fun xs => ∀ x ∈ xs, P x) atom tuple frozenset (by simp)
    (fun _ _ first others => List.forall_mem_cons.mpr ⟨first, others⟩) k

theorem same_refl (k : Key) : k.same k := by
  induction k using induct with
  | atom a => simp [same]
  | tuple xs ih => exact same_tuple.mpr (List.forall₂_same.mpr ih)
  | frozenset xs ih =>
    have itself : ∀ x ∈ xs, ∃ y ∈ xs, x.same y := fun x member => ⟨x, member, ih x member⟩
    have itself' : ∀ y ∈ xs, ∃ x ∈ xs, x.same y := fun y member => ⟨y, member, ih y member⟩
    exact same_frozenset.mpr ⟨itself, itself'⟩

/-- A key is the same as what another is the same as, if the two are the same. -/
theorem same_congr (same : k.same l) : k.same m ↔ l.same m := by
  induction k using induct generalizing l m with
  | atom a =>
    cases l with
    | atom b => cases m <;> simp_all [Key.same]
    | _ => simp [Key.same] at same
  | tuple xs ih =>
    cases l with
    | tuple ys =>
      cases m with
      | tuple zs =>
        rw [same_tuple, same_tuple]
        replace same := same_tuple.mp same
        induction same generalizing zs with
        | nil => rfl
        | cons first _ others =>
          obtain ⟨here, ih⟩ := List.forall_mem_cons.mp ih
          cases zs with
          | nil => simp
          | cons z zs => simp only [List.forall₂_cons, here first, others ih]
      | _ => simp [Key.same]
    | _ => simp [Key.same] at same
  | frozenset xs ih =>
    cases l with
    | frozenset ys =>
      cases m with
      | frozenset zs =>
        obtain ⟨covered, covered'⟩ := same_frozenset.mp same
        rw [same_frozenset, same_frozenset]
        -- a member and its partner in the other set are the same as the same member of the third
        constructor
        · rintro ⟨there, back⟩
          refine ⟨fun y member => ?_, fun z member => ?_⟩
          · obtain ⟨x, member', same⟩ := covered' y member
            obtain ⟨z, member'', same'⟩ := there x member'
            exact ⟨z, member'', (ih x member' same).mp same'⟩
          · obtain ⟨x, member', same'⟩ := back z member
            obtain ⟨y, member'', same⟩ := covered x member'
            exact ⟨y, member'', (ih x member' same).mp same'⟩
        · rintro ⟨there, back⟩
          refine ⟨fun x member => ?_, fun z member => ?_⟩
          · obtain ⟨y, member', same⟩ := covered x member
            obtain ⟨z, member'', same'⟩ := there y member'
            exact ⟨z, member'', (ih x member same).mpr same'⟩
          · obtain ⟨y, member', same'⟩ := back z member
            obtain ⟨x, member'', same⟩ := covered' y member'
            exact ⟨x, member'', (ih x member'' same).mpr same'⟩
      | _ => simp [Key.same]
    | _ => simp [Key.same] at same

/-- Two keys are the same exactly if they are the same as the same keys. -/
theorem same_iff : k.same l ↔ k.same = l.same := by
  constructor
  · intro same
    funext m
    exact Bool.eq_iff_iff.mpr (same_congr same)
  · intro same
    rw [same]
    exact same_refl l

end Key

end Conductor
