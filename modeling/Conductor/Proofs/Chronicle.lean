import Conductor.Proofs.Bodies
import Mathlib.Data.Int.ConditionallyCompleteOrder
import Mathlib.Order.ConditionallyCompleteLattice.Basic
import Mathlib.Order.Monotone.Defs
import Mathlib.Order.Nat

/-!
# The order of time

The journal is in the order of time: whatever is noted is noted at the time that the clock shows, and the clock
never goes back. The record of a run keeps the time at which it was made. Once the run has settled it shows how
long that was before the note of its settlement, and nothing but an aftermath of the run is noted any more.
-/

namespace Conductor.World

variable {plan : Plan} {w w' : World} {run : RunId} {r : Record} {s : Status} {x : Note} {p q : Note → Bool}
  {notes later earlier : List Note} {tasks : List (FutureId × Routine)} {start time : Nat}

/-! ### Stamps -/

theorem Noting.stamped (noting : Noting plan w notes w') :
    w'.journal = notes.map w.stamp ++ w.journal ∧ w.clock ≤ w'.clock := by
  cases noting with
  | acted act => exact ⟨act.effect.stamped, Nat.le_of_eq act.effect.clock.symm⟩
  | @told _ _ _ _ _ _ w₁ _ _ next ends _ =>
    have taken := nextJob_sameRuns next
    have same : w₁.stamp = w.stamp := funext fun x => congrArg (fun time => (x.1, time, x.2)) taken.clock
    refine ⟨?_, Nat.le_of_eq (ends.effect.clock.trans taken.clock).symm⟩
    rw [ends.effect.stamped, same, taken.journal]
  | quiet quiet => exact ⟨quiet.journal, quiet.clock⟩

/-- Whether the journal is in the order of time, and tells of nothing that is still to come. -/
structure Chronological (w : World) : Prop where
  ordered : w.journal.Pairwise fun x y => y.2.1 ≤ x.2.1
  past : ∀ x ∈ w.journal, x.2.1 ≤ w.clock

theorem Chronological.noting (chronological : w.Chronological) (noting : Noting plan w notes w') :
    w'.Chronological := by
  obtain ⟨journal, clock⟩ := noting.stamped
  have now : ∀ x ∈ notes.map w.stamp, x.2.1 = w.clock := by
    intro x member
    obtain ⟨y, -, rfl⟩ := List.mem_map.mp member
    rfl
  refine ⟨?_, fun x member => ?_⟩
  · rw [journal, List.pairwise_append]
    refine ⟨?_, chronological.ordered, fun x new y old => ?_⟩
    · refine List.pairwise_map.mpr (List.pairwise_of_forall fun x y => Nat.le_refl _)
    · rw [now x new]
      exact chronological.past y old
  · rw [journal] at member
    rcases List.mem_append.mp member with new | old
    · rwa [now x new]
    · exact Nat.le_trans (chronological.past x old) clock

theorem Reachable.chronological (reached : Reachable plan w) : w.Chronological := by
  induction reached with
  | fresh fresh => exact ⟨by simp [fresh.journal], by simp [fresh.journal]⟩
  | move before m ih =>
    obtain ⟨notes, noting⟩ := m.noting before.sound
    exact ih.noting noting

/-- The time in milliseconds at which the next note was made when there were so many, or is made if it is now. -/
def reading (w : World) (k : Nat) : Int :=
  ((w.journal.reverse[k]?.elim w.clock fun x => x.2.1) * tickLength : Nat)

theorem Chronological.monotone (chronological : w.Chronological) : Monotone w.reading := by
  have oldest : w.journal.reverse.Pairwise fun x y => x.2.1 ≤ y.2.1 :=
    List.pairwise_reverse.mpr chronological.ordered
  intro i j le
  refine Int.ofNat_le.mpr (Nat.mul_le_mul_right _ ?_)
  cases found : w.journal.reverse[j]? with
  | none =>
    cases before : w.journal.reverse[i]? with
    | none => exact Nat.le_refl _
    | some x => exact chronological.past x (List.mem_reverse.mp (List.mem_of_getElem? before))
  | some y =>
    obtain ⟨bound, rfl⟩ := List.getElem?_eq_some_iff.mp found
    rw [List.getElem?_eq_getElem (Nat.lt_of_le_of_lt le bound)]
    rcases Nat.lt_or_eq_of_le le with less | rfl
    · exact List.pairwise_iff_getElem.mp oldest i j _ bound less
    · exact Nat.le_refl _

theorem Moves.since (moves : Moves plan w w') (reached : Reachable plan w) : ∃ new, w'.journal = new ++ w.journal ∧
    (∀ x ∈ new, w.clock ≤ x.2.1) ∧ w.clock ≤ w'.clock := by
  induction moves with
  | refl => exact ⟨[], rfl, by simp, Nat.le_refl _⟩
  | @tail v v' before m ih =>
    obtain ⟨new, journal, since, clock⟩ := ih
    obtain ⟨notes, noting⟩ := m.noting (reached.moves before).sound
    obtain ⟨journal', clock'⟩ := noting.stamped
    refine ⟨notes.map v.stamp ++ new, by rw [journal', journal, List.append_assoc], ?_, Nat.le_trans clock clock'⟩
    intro x member
    rcases List.mem_append.mp member with late | early
    · obtain ⟨y, -, rfl⟩ := List.mem_map.mp late
      exact clock
    · exact since x early

theorem le_reading {new before : List (RunId × Nat × Happening)} (split : w.journal = new ++ before)
    (since : ∀ x ∈ new, time ≤ x.2.1) (now : time ≤ w.clock) :
    (time * tickLength : Nat) ≤ w.reading before.length := by
  apply Int.ofNat_le.mpr
  apply Nat.mul_le_mul_right
  rw [split, List.reverse_append, List.getElem?_append_right (Nat.le_of_eq List.length_reverse)]
  cases found : new.reverse[before.length - before.reverse.length]? with
  | none => exact now
  | some x => exact since x (List.mem_reverse.mp (List.mem_of_getElem? found))

/-! ### Records -/

/-- An effect leaves a record as it is, or settles the run and notes how long it took by then. -/
theorem Effect.record_cases (effect : Effect notes tasks w w') (known : w.record? run = some r) :
    w'.record? run = some r ∨ ∃ s, r.status = .running ∧ s.isSettled ∧
      w'.record? run = some { r with status := s } ∧ (run, .settled s) ∈ notes ∧ s.duration = w.elapsed r.started := by
  have settling {w : World} {other : RunId} {r r' : Record} {s : Status} (known : w.record? run = some r)
      (known' : w.record? other = some r') (running : r'.status = .running) (past : s.isSettled)
      (took : s.duration = w.elapsed r'.started) :
      (w.setStatus other s).record? run = some r ∨ ∃ s', r.status = .running ∧ s'.isSettled ∧
        (w.setStatus other s).record? run = some { r with status := s' } ∧
          (run, .settled s') ∈ [(other, Happening.settled s)] ∧ s'.duration = w.elapsed r.started := by
    by_cases same : run = other
    · subst same
      obtain rfl := Option.some.inj (known.symm.trans known')
      refine .inr ⟨s, running, past, ?_, List.mem_singleton_self _, took⟩
      rw [record?_setStatus, if_pos rfl, known]
      rfl
    · left
      rwa [record?_setStatus, if_neg same]
  induction effect generalizing r with
  | kept d =>
    cases d with
    | noted _ => exact .inl known
    | refused known' running past _ took => exact settling known known' running past took
    | marked _ => exact .inl known
  | scripted done => exact .inl ((record?_congr done.sameRuns.records run).trans known)
  | described d => exact .inl ((record?_congr (newCompletion_records d) run).trans known)
  | @recorded w r' _ _ =>
    left
    have old : run ≠ w.records.size := by
      rintro rfl
      simp [record?] at known
    change (w.records.push r')[run]? = some r
    rwa [Array.getElem?_push, if_neg old]
  | tasked r' _ => exact .inl ((record?_congr (newTask_sameRuns r').records run).trans known)
  | watched _ _ _ _ _ => exact .inl ((record?_congr onSettled_sameRuns.records run).trans known)
  | joined _ _ => exact .inl ((record?_congr (newJoint_sameRuns _).records run).trans known)
  | waited _ => exact .inl ((record?_congr onSettled_sameRuns.records run).trans known)
  | concluded known' running verdict took =>
    rw [record?_congr settle_sameRuns.records]
    exact settling known known' running verdict.isSettled took
  | failed _ _ _ _ => exact .inl ((record?_congr settle_sameRuns.records run).trans known)
  | trans first _ ih ih' =>
    -- a run that the first part has settled is no longer running, so the second one cannot settle it again
    rcases ih known with same | ⟨s, running, past, there, noted, took⟩
    · rcases ih' same with same' | ⟨s, running, past, there, noted, took⟩
      · exact .inl same'
      · refine .inr ⟨s, running, past, there, List.mem_append_left _ noted, ?_⟩
        rw [took, elapsed, elapsed, first.clock]
    · rcases ih' there with same' | ⟨_, still, -⟩
      · exact .inr ⟨s, running, past, same', List.mem_append_right _ noted, took⟩
      · obtain rfl : s = .running := still
        cases past

/-- Whether a run was made at a time, and shows how long it took from then to the note of its settlement. -/
def Clocked (w : World) (run : RunId) (start : Nat) : Prop :=
  ∃ r, w.record? run = some r ∧ r.started = start ∧ (r.status.isSettled →
    ∃ time, (run, time, .settled r.status) ∈ w.journal ∧ r.status.duration = (time - start) * tickLength)

theorem Clocked.noting (clocked : w.Clocked run start) (noting : Noting plan w notes w') : w'.Clocked run start := by
  obtain ⟨r, known, rfl, settles⟩ := clocked
  obtain ⟨journal, -⟩ := noting.stamped
  have kept (same : w'.record? run = some r) : w'.Clocked run r.started := by
    refine ⟨r, same, rfl, fun past => ?_⟩
    obtain ⟨time, noted, took⟩ := settles past
    exact ⟨time, journal ▸ List.mem_append_right _ noted, took⟩
  have settled {s : Status} (there : w'.record? run = some { r with status := s }) (noted : (run, .settled s) ∈ notes)
      (took : s.duration = w.elapsed r.started) : w'.Clocked run r.started :=
    ⟨_, there, rfl, fun _ => ⟨w.clock, journal ▸ List.mem_append_left _ (List.mem_map_of_mem noted), took⟩⟩
  cases noting with
  | acted act =>
    rcases act.effect.record_cases known with same | ⟨s, -, -, there, noted, took⟩
    · exact kept same
    · exact settled there noted took
  | @told _ _ _ _ _ _ w₁ _ _ next ends _ =>
    have taken := nextJob_sameRuns next
    rcases ends.effect.record_cases ((record?_congr taken.records run).trans known) with
      same | ⟨s, -, -, there, noted, took⟩
    · exact kept same
    · rw [elapsed, taken.clock] at took
      exact settled there noted took
  | quiet quiet => exact kept ((record?_congr quiet.records run).trans known)

theorem Clocked.moves (clocked : w.Clocked run start) (reached : Reachable plan w) (moves : Moves plan w w') :
    w'.Clocked run start := by
  induction moves with
  | refl => exact clocked
  | tail before m ih =>
    obtain ⟨notes, noting⟩ := m.noting (reached.moves before).sound
    exact ih.noting noting

/-! ### What follows a settlement -/

theorem Effect.settles (effect : Effect notes tasks w w') (settled : (run, .settled s) ∈ notes) :
    w'.isSettled run := by
  have marked {w : World} {other : RunId} {r : Record} {s' : Status} (known : w.record? other = some r)
      (past : s'.isSettled) (same : (run, Happening.settled s) ∈ [(other, Happening.settled s')]) :
      (w.setStatus other s').isSettled run := by
    obtain ⟨rfl, -⟩ := Prod.mk.inj (List.mem_singleton.mp same)
    rw [isSettled, status_setStatus known]
    exact past
  induction effect with
  | kept d =>
    cases d with
    | noted fits =>
      obtain ⟨rfl, rfl⟩ := Prod.mk.inj (List.mem_singleton.mp settled)
      exact fits.elim
    | refused known _ past _ _ => exact marked known past settled
    | marked _ => cases settled
  | watched _ _ _ _ _ => cases List.mem_singleton.mp settled
  | concluded known _ verdict _ =>
    rw [isSettled_congr settle_sameRuns.records]
    exact marked known verdict.isSettled settled
  | trans _ second ih ih' =>
    rcases List.mem_append.mp settled with new | old
    · exact ih' new
    · exact (isSettled_of_record (second.inert (ih old)).1).trans (ih old)
  | _ => cases settled

/-- Whether nothing but an aftermath of a run follows the notes that it has settled. -/
def Ceases (notes : List Note) : Prop :=
  ∀ later earlier run s, notes = later ++ (run, .settled s) :: earlier → ∀ x, (run, x) ∈ later → x.isAftermath

theorem Ceases.single (x : Note) : Ceases [x] := by
  intro later earlier run s split y member
  cases later with
  | nil => cases member
  | cons z later => simp at split

theorem Ceases.append {more : List Note} (first : Ceases notes) (second : Ceases more)
    (aftermath : ∀ run s, (run, .settled s) ∈ notes → ∀ x, (run, x) ∈ more → x.isAftermath) :
    Ceases (more ++ notes) := by
  intro later earlier run s split x member
  rcases List.append_eq_append_iff.mp split with ⟨front, rfl, rest⟩ | ⟨front, rfl, rest⟩
  · rcases List.mem_append.mp member with new | old
    · exact aftermath run s (rest ▸ List.mem_append_right _ List.mem_cons_self) x new
    · exact first front earlier run s rest x old
  · cases front with
    | nil =>
      have settled : (run, Happening.settled s) ∈ [] ++ notes := rest ▸ List.mem_cons_self
      exact aftermath run s settled x (by simpa using member)
    | cons y front =>
      obtain ⟨rfl, rfl⟩ := List.cons.inj rest
      exact second later front run s rfl x member

theorem Effect.ceases (effect : Effect notes tasks w w') : Ceases notes := by
  induction effect with
  | kept d =>
    cases d with
    | marked _ => exact fun later _ _ _ split => by simp at split
    | _ => exact .single _
  | watched _ _ _ _ _ => exact .single _
  | concluded _ _ _ _ => exact .single _
  | trans first second ih ih' =>
    exact ih.append ih' fun run s settled => (second.inert (first.settles settled)).2
  | _ => exact fun later _ _ _ split => by simp at split

theorem Noting.ceases (noting : Noting plan w notes w') :
    Ceases notes ∧ ∀ run s, (run, .settled s) ∈ notes → w'.isSettled run := by
  cases noting with
  | acted act => exact ⟨act.effect.ceases, fun _ _ => act.effect.settles⟩
  | told _ _ ends _ => exact ⟨ends.effect.ceases, fun _ _ => ends.effect.settles⟩
  | quiet _ => exact ⟨fun later _ _ _ split => by simp at split, fun _ _ settled => nomatch settled⟩

/-- Nothing but an aftermath of a run follows the note that it has settled. -/
theorem Reachable.ceases (reached : Reachable plan w) :
    Ceases w.notes ∧ ∀ run s, (run, .settled s) ∈ w.notes → w.isSettled run := by
  induction reached with
  | fresh fresh => exact ⟨fun later _ _ _ split => by simp [World.notes, fresh.journal] at split,
      fun _ _ settled => by simp [World.notes, fresh.journal] at settled⟩
  | @move w w' before m ih =>
    obtain ⟨notes, noting⟩ := m.noting before.sound
    obtain ⟨ceases, settles⟩ := noting.ceases
    rw [noting.noted]
    refine ⟨ih.1.append ceases fun run s settled => ?_, fun run s settled => ?_⟩
    · obtain ⟨notes', noted, -, aftermath⟩ := m.inert before.sound.steady (ih.2 run s settled)
      obtain rfl := List.append_cancel_right (noting.noted.symm.trans noted)
      exact aftermath
    · rcases List.mem_append.mp settled with new | old
      · exact settles run s new
      · exact m.settled before.sound.steady (ih.2 run s old)

/-! ### Moments -/

/-- The moment of the first note of a kind: how many notes were made before it. -/
def momentOf (w : World) (p : Note → Bool) : Nat := w.notes.reverse.findIdx p

theorem le_momentOf (split : w.notes = later ++ earlier) (none : ∀ x ∈ earlier, p x = false) :
    earlier.length ≤ w.momentOf p := by
  have past : earlier.reverse.findIdx p = earlier.reverse.length := by
    apply List.findIdx_eq_length.mpr
    intro x member
    exact none x (List.mem_reverse.mp member)
  rw [momentOf, split, List.reverse_append, List.findIdx_append, past, if_neg (Nat.lt_irrefl _), List.length_reverse]
  omega

theorem momentOf_lt_momentOf (there : ∃ x ∈ w.notes, p x)
    (before : ∀ later x earlier, w.notes = later ++ x :: earlier → p x → ∃ y ∈ earlier, q y) :
    w.momentOf q < w.momentOf p := by
  have bound : w.momentOf p < w.notes.reverse.length :=
    List.findIdx_lt_length_of_exists (by simpa using there)
  have split := (List.take_append_drop (w.momentOf p) w.notes.reverse).symm
  rw [List.drop_eq_getElem_cons bound] at split
  -- the notes up to the first one of the kind, oldest first
  generalize past : w.notes.reverse.take (w.momentOf p) = front at split
  have length : front.length = w.momentOf p := by
    rw [← past, List.length_take]
    omega
  have back := congrArg List.reverse split
  simp only [List.reverse_reverse, List.reverse_append, List.reverse_cons, List.append_assoc,
    List.singleton_append] at back
  obtain ⟨y, member, here⟩ := before _ _ _ back List.findIdx_getElem
  have found : front.findIdx q < front.length :=
    List.findIdx_lt_length_of_exists ⟨y, List.mem_reverse.mp member, here⟩
  have moment : w.momentOf q = front.findIdx q := by
    rw [momentOf, split, List.findIdx_append, if_pos found]
  omega

/-- The moment of a note of a kind of which there was none before, and the time that it bears. -/
theorem reading_momentOf {before after : List (RunId × Nat × Happening)} {h : Happening}
    (split : w.journal = after ++ (run, time, h) :: before) (here : p (run, h))
    (first : ∀ x ∈ before, p (x.1, x.2.2) = false) : w.reading (w.momentOf p) = (time * tickLength : Nat) := by
  have moment : w.momentOf p = before.length := by
    have none : ((before.map fun x => (x.1, x.2.2)).reverse).findIdx p = before.length := by
      rw [List.findIdx_eq_length.mpr fun x member => ?_]
      · simp
      · obtain ⟨y, there, rfl⟩ := List.mem_map.mp (List.mem_reverse.mp member)
        exact first y there
    rw [momentOf, notes, split]
    simp [List.findIdx_append, none, List.findIdx_cons, here]
  rw [reading, moment, split]
  simp

end Conductor.World
