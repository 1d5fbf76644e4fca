import Conductor.Value.Method

/-!
# Dictionaries of a heap

Whatever is done with values, no dictionary goes from the heap, and a merge changes one of them only: it
writes the keys of a mapping over those of its target and takes none away.
-/

namespace Conductor

/-! ### Computations one after the other -/

section Bind

variable {ε α β : Type} {x : Except ε α} {f : α → Except ε β} {b : β} {e : ε}

theorem bind_ok (done : x >>= f = .ok b) : ∃ a, x = .ok a ∧ f a = .ok b := by
  cases x with
  | error _ => cases done
  | ok a => exact ⟨a, rfl, done⟩

theorem bind_error (failed : x >>= f = .error e) : x = .error e ∨ ∃ a, x = .ok a ∧ f a = .error e := by
  cases x with
  | error _ => exact .inl (congrArg _ (Except.error.inj failed))
  | ok a => exact .inr ⟨a, rfl, failed⟩

end Bind

namespace Heap

variable {h h' : Heap} {r s : DictRef} {entries entries' : Entries} {container k v : Value}

/-! ### One dictionary -/

theorem size_setDict (entries : Entries) : (h.setDict r entries).dicts.size = h.dicts.size :=
  Array.size_setIfInBounds

theorem dict_setDict_self (known : r.index < h.dicts.size) : (h.setDict r entries).dict r = entries := by
  simp [dict, setDict, known]

theorem dict_setDict_other (other : s ≠ r) : (h.setDict r entries).dict s = h.dict s := by
  have apart : r.index ≠ s.index := by
    intro same
    cases r
    cases s
    simp_all
  simp [dict, setDict, apart]

theorem setDict_dict : h.setDict r (h.dict r) = h := by
  have dicts : h.dicts.setIfInBounds r.index (h.dict r) = h.dicts := by
    refine Array.ext Array.size_setIfInBounds fun i _ known => ?_
    rw [Array.getElem_setIfInBounds known]
    split
    · rename_i own
      subst own
      simp [dict, known]
    · rfl
  rw [setDict, dicts]

theorem setDict_setDict : (h.setDict r entries).setDict r entries' = h.setDict r entries' := by
  simp [setDict]

theorem dict_newDict_self : (h.newDict entries).2.dict (h.newDict entries).1 = entries := by
  simp [dict, newDict]

theorem dict_newDict_other (known : s.index < h.dicts.size) : (h.newDict entries).2.dict s = h.dict s := by
  simp [dict, newDict, Array.getElem?_push, Nat.ne_of_lt known]

/-! ### Changes by methods -/

theorem setItem_size (done : h.setItem container k v = .ok h') : h'.dicts.size = h.dicts.size := by
  unfold setItem at done
  split at done
  · obtain ⟨key, -, done⟩ := bind_ok done
    obtain rfl := Except.ok.inj done
    exact size_setDict _
  · obtain ⟨i, -, done⟩ := bind_ok done
    obtain rfl := Except.ok.inj done
    rfl
  · cases done

theorem deleteItem_size (done : h.deleteItem container k = .ok h') : h'.dicts.size = h.dicts.size := by
  unfold deleteItem at done
  split at done
  · obtain ⟨key, -, done⟩ := bind_ok done
    split at done
    · obtain rfl := Except.ok.inj done
      exact size_setDict _
    · cases done
  · obtain ⟨i, -, done⟩ := bind_ok done
    obtain rfl := Except.ok.inj done
    rfl
  · cases done

theorem merge_size (done : h.merge r v = .ok h') : h'.dicts.size = h.dicts.size := by
  unfold merge at done
  split at done
  · obtain rfl := Except.ok.inj done
    rfl
  · split at done
    · obtain rfl := Except.ok.inj done
      exact size_setDict _
    · cases done

theorem callList_size (l : ListRef) (name : String) (arguments : List Value) :
    (h.callList l name arguments).2.dicts.size = h.dicts.size := by
  unfold callList
  dsimp only
  repeat' split
  all_goals rfl

theorem callDictionary_size (r : DictRef) (name : String) (arguments : List Value) :
    (h.callDictionary r name arguments).2.dicts.size = h.dicts.size := by
  unfold callDictionary
  dsimp only
  repeat' split
  all_goals first | rfl | exact size_setDict _

theorem callOperation_size (v : Value) (name : String) (arguments : List Value) :
    (h.callOperation v name arguments).2.dicts.size = h.dicts.size := by
  unfold callOperation
  dsimp only
  repeat' split
  · rename_i done
    exact setItem_size done
  · rfl
  · rename_i done
    exact deleteItem_size done
  all_goals rfl

theorem callMember_size (v : Value) (arguments : List Value) (m : ValueMember) :
    (h.callMember v arguments m).2.dicts.size = h.dicts.size := by
  cases m with
  | idle => rfl
  | inherited name i =>
    unfold callMember
    dsimp only
    split
    · rfl
    · exact callOperation_size _ _ _
  | method name least most =>
    unfold callMember
    dsimp only
    split
    · rfl
    · split
      · exact callList_size _ _ _
      · exact callDictionary_size _ _ _
      · rfl

structure Keeps (h h' : Heap) : Prop where
  size : h.dicts.size ≤ h'.dicts.size
  same : ∀ r : DictRef, r.index < h.dicts.size → h'.dict r = h.dict r

theorem Keeps.refl (h : Heap) : Keeps h h := ⟨Nat.le_refl _, fun _ _ => rfl⟩

theorem Keeps.trans {h₁ h₂ h₃ : Heap} (first : Keeps h₁ h₂) (second : Keeps h₂ h₃) : Keeps h₁ h₃ :=
  ⟨Nat.le_trans first.size second.size, fun r known =>
    (second.same r (Nat.lt_of_lt_of_le known first.size)).trans (first.same r known)⟩

theorem Keeps.newDict (entries : Entries) : Keeps h (h.newDict entries).2 :=
  ⟨by simp [Heap.newDict], fun _ known => dict_newDict_other known⟩

end Heap

namespace Template

mutual

theorem eval_keeps (s : Surroundings) (t : Template) (h : Heap) : h.Keeps (eval s t h).2 := by
  match t with
  | .null | .bool _ | .int _ | .float _ | .text _ | .bytes _ | .sharedArgs => exact .refl h
  | .nan | .object _ => exact ⟨Nat.le_refl _, fun _ _ => rfl⟩
  | .list items =>
    have made := evalList_keeps s items h
    unfold eval
    split <;> rename_i same <;> rw [same] at made
    · exact made
    · exact made.trans ⟨Nat.le_refl _, fun _ _ => rfl⟩
  | .tuple items | .set _ items =>
    have made := evalList_keeps s items h
    unfold eval
    split <;> rename_i same <;> rw [same] at made <;> exact made
  | .dict entries =>
    have made := evalPairs_keeps s entries h
    unfold eval
    split <;> rename_i same <;> rw [same] at made
    · exact made
    · exact made.trans (.newDict _)
  | .proxy entries =>
    have made := evalPairs_keeps s entries h
    unfold eval
    split <;> rename_i same <;> rw [same] at made <;> exact made
  | .get key fallback =>
    have made := eval_keeps s key h
    unfold eval
    split
    · exact .refl h
    · split <;> rename_i h₁ same <;> rw [same] at made
      · exact made
      · have made' := eval_keeps s fallback h₁
        split <;> rename_i same' <;> rw [same'] at made' <;> exact made.trans made'
  | .increment key =>
    have made := eval_keeps s key h
    unfold eval
    split
    · exact .refl h
    · split <;> rename_i same <;> rw [same] at made
      · exact made
      · split
        · exact made
        · split <;> first | exact made | exact made.trans ⟨Nat.le_refl _, fun _ _ => rfl⟩

theorem evalList_keeps (s : Surroundings) (ts : List Template) (h : Heap) : h.Keeps (evalList s ts h).2 := by
  match ts with
  | [] => exact .refl h
  | t :: ts =>
    have made := eval_keeps s t h
    unfold evalList
    split <;> rename_i h₁ same <;> rw [same] at made
    · exact made
    · have made' := evalList_keeps s ts h₁
      split <;> rename_i same' <;> rw [same'] at made' <;> exact made.trans made'

theorem evalPairs_keeps (s : Surroundings) (pairs : List (Template × Template)) (h : Heap) :
    h.Keeps (evalPairs s pairs h).2 := by
  match pairs with
  | [] => exact .refl h
  | (k, v) :: rest =>
    have made := eval_keeps s k h
    unfold evalPairs
    split <;> rename_i h₁ same <;> rw [same] at made
    · exact made
    · have made' := eval_keeps s v h₁
      split <;> rename_i h₂ same' <;> rw [same'] at made'
      · exact made.trans made'
      · split
        · exact made.trans made'
        · have made'' := evalPairs_keeps s rest h₂
          split <;> rename_i same'' <;> rw [same''] at made'' <;>
            exact (made.trans made').trans made''

end

end Template

end Conductor
