import Conductor.Proofs.Effect

/-!
# What only grows

Settlements, the kinds of futures, descriptors, records and the journal are never taken back. These
facts hold of every move, and so between any two states of which one is reached from the other.
-/

namespace Conductor

/-- What a future is, apart from where it stands. -/
inductive Kind where
  | plain (role : Role)
  | joint (children : List FutureId)
  | task

def Purpose.kind : Purpose → Kind
  | .plain role => .plain role
  | .joint children _ _ => .joint children
  | .task _ _ _ => .task

namespace World

def kind? (w : World) (f : FutureId) : Option Kind := (w.purpose? f).map Purpose.kind

def loop? (w : World) (f : FutureId) : Option Nat := (w.future? f).map (·.loop)

def first? (w : World) (c : CompletionId) : Option FutureId :=
  (w.completion? c).bind Completion.future?

def outcome? (w : World) (run : RunId) : Option FutureId := (w.record? run).map (·.outcome)

structure Grown (w w' : World) : Prop where
  settlements : ∀ f s, w.settlement? f = some s → w'.settlement? f = some s
  kinds : ∀ f k, w.kind? f = some k → w'.kind? f = some k
  loops : ∀ f n, w.loop? f = some n → w'.loop? f = some n
  firsts : ∀ c f, w.first? c = some f → w'.first? c = some f
  outcomes : ∀ run f, w.outcome? run = some f → w'.outcome? run = some f
  journal : w.journal <:+ w'.journal

variable {w w' : World} {f g : FutureId} {j : Job} {s : Settlement}

/-! ### Settlements one by one -/

theorem settlement?_of_future? {x : Future} (found : w.future? f = some x) :
    w.settlement? f = x.settled := by
  simp [settlement?, found]

theorem settlement?_congr (futures : w'.futures = w.futures) :
    w'.settlement? f = w.settlement? f := by
  simp [settlement?, future?, futures]

theorem settlement?_settle_self {x : Future} (found : w.future? f = some x) :
    (w.settle f s).settlement? f = some (x.settled.getD s) := by
  unfold settlement?
  rw [future?_settle, if_pos rfl, found]
  cases settled : x.settled <;> simp [Future.settledAs, settled]

theorem settlement?_settle_other (other : g ≠ f) :
    (w.settle f s).settlement? g = w.settlement? g := by
  unfold settlement?
  rw [future?_settle, if_neg other]

theorem settlement?_settle (g : FutureId) :
    (w.settle f s).settlement? g = w.settlement? g ∨
      (g = f ∧ w.settlement? g = none ∧ (w.settle f s).settlement? g = some s) := by
  by_cases same : g = f
  · subst same
    cases found : w.future? g with
    | none =>
      left
      unfold settlement?
      rw [future?_settle, if_pos rfl, found]
      rfl
    | some x =>
      rw [settlement?_settle_self found, settlement?_of_future? found]
      cases x.settled with
      | none => exact .inr ⟨rfl, rfl, rfl⟩
      | some s' => exact .inl rfl
  · exact .inl (settlement?_settle_other same)

theorem settlement?_eq_join : w.settlement? f = ((w.future? f).map Future.settled).join := by
  unfold settlement?
  cases w.future? f <;> rfl

theorem settlement?_onSettled : (w.onSettled f j).settlement? g = w.settlement? g := by
  rw [settlement?_eq_join, future?_onSettled, map_changed Future.settled calling_settled, ← settlement?_eq_join]

theorem settlement?_post (loop : Nat) : (w.post loop j).settlement? g = w.settlement? g := by
  unfold settlement?
  rw [future?_post]

theorem settlement?_newFuture (purpose : Purpose) :
    (w.newFuture purpose).2.settlement? g = w.settlement? g := by
  unfold settlement?
  rw [future?_newFuture]
  split
  · rename_i same
    subst same
    rw [show w.future? w.futures.size = none from Array.getElem?_size]
    rfl
  · rfl

theorem settlement?_newTask (r : Routine) : (w.newTask r).2.settlement? g = w.settlement? g :=
  (settlement?_post _).trans (settlement?_newFuture _)

theorem settlement?_repurpose {p : Purpose} : (w.repurpose f p).settlement? g = w.settlement? g := by
  rw [settlement?_eq_join, settlement?_eq_join, repurpose, future?_modifyFuture]
  exact congrArg Option.join (map_changed Future.settled (fun _ => by rfl) _)

theorem loop?_repurpose {p : Purpose} : (w.repurpose f p).loop? g = w.loop? g := by
  rw [loop?, repurpose, future?_modifyFuture]
  exact map_changed Future.loop (fun _ => by rfl) _

theorem first?_of_known {c : CompletionId} {x : Completion} (known : w.completion? c = some x)
    (own : x.future? = some f) : w.first? c = some f := by
  rw [first?, known]
  exact own

theorem first?_of_map (same : w'.completions.map Completion.future?
    = w.completions.map Completion.future?) (c : CompletionId) : w'.first? c = w.first? c := by
  have there := congrArg (·[c]?) same
  simp only [Array.getElem?_map] at there
  unfold first? completion?
  cases found : w'.completions[c]? <;> cases found' : w.completions[c]? <;> simp_all

theorem outcome?_of_map (same : w'.records.map (·.outcome) = w.records.map (·.outcome))
    (run : RunId) : w'.outcome? run = w.outcome? run := by
  have there := congrArg (·[run]?) same
  simpa only [Array.getElem?_map, outcome?, record?] using there

theorem kind?_of_purpose? {p : Purpose} (own : w.purpose? f = some p) :
    w.kind? f = some p.kind := by
  rw [kind?, own]
  rfl

theorem plain_of_kind? {role : Role} (kind : w.kind? f = some (.plain role)) :
    w.purpose? f = some (.plain role) := by
  obtain ⟨p, own, same⟩ := Option.map_eq_some_iff.mp kind
  cases p with
  | plain role' =>
    obtain rfl : role' = role := by simpa [Purpose.kind] using same
    exact own
  | joint _ _ _ => simp [Purpose.kind] at same
  | task _ _ _ => simp [Purpose.kind] at same

/-! ### What every change keeps -/

namespace Grown

theorem refl (w : World) : Grown w w :=
  ⟨fun _ _ h => h, fun _ _ h => h, fun _ _ h => h, fun _ _ h => h, fun _ _ h => h, List.suffix_rfl⟩

theorem trans {w₁ w₂ w₃ : World} (h : Grown w₁ w₂) (h' : Grown w₂ w₃) : Grown w₁ w₃ where
  settlements f s there := h'.settlements f s (h.settlements f s there)
  kinds f k there := h'.kinds f k (h.kinds f k there)
  loops f n there := h'.loops f n (h.loops f n there)
  firsts c f there := h'.firsts c f (h.firsts c f there)
  outcomes run f there := h'.outcomes run f (h.outcomes run f there)
  journal := h.journal.trans h'.journal

theorem isSome (h : Grown w w') (f : FutureId) (past : (w.settlement? f).isSome) :
    (w'.settlement? f).isSome := by
  obtain ⟨s, there⟩ := Option.isSome_iff_exists.mp past
  exact Option.isSome_iff_exists.mpr ⟨s, h.settlements f s there⟩

theorem known (h : Grown w w') (bound : f < w.futures.size) : f < w'.futures.size := by
  obtain ⟨x, found⟩ := future?_isSome bound
  have there := h.loops f x.loop (by simp [loop?, found])
  obtain ⟨x', found', -⟩ := Option.map_eq_some_iff.mp there
  exact future?_lt found'

theorem size_le (h : Grown w w') : w.futures.size ≤ w'.futures.size := by
  rcases Nat.eq_zero_or_pos w.futures.size with none | some
  · exact none ▸ Nat.zero_le _
  · have last : w.futures.size - 1 < w'.futures.size := h.known (Nat.sub_lt some Nat.one_pos)
    omega

/-- Changes apart from futures that leave descriptors, outcomes and the journal alone. -/
theorem of_parts (futures : w'.futures = w.futures)
    (firsts : w'.completions.map Completion.future? = w.completions.map Completion.future?)
    (outcomes : w'.records.map (·.outcome) = w.records.map (·.outcome))
    (journal : w.journal <:+ w'.journal) : Grown w w' where
  settlements _ _ there := (settlement?_congr futures).trans there
  kinds _ _ there := by
    simpa only [kind?, purpose?, future?, futures] using there
  loops _ _ there := by
    simpa only [loop?, future?, futures] using there
  firsts c _ there := (first?_of_map firsts c).trans there
  outcomes run _ there := (outcome?_of_map outcomes run).trans there
  journal := journal

theorem of_sameLoop (same : SameLoop w w') : Grown w w' :=
  of_parts same.futures same.firsts same.outcomes same.journal

theorem of_futures (same : SameRuns w w')
    (settlements : ∀ f s, w.settlement? f = some s → w'.settlement? f = some s)
    (kinds : ∀ f k, w.kind? f = some k → w'.kind? f = some k)
    (loops : ∀ f n, w.loop? f = some n → w'.loop? f = some n) : Grown w w' where
  settlements := settlements
  kinds := kinds
  loops := loops
  firsts c _ there := (first?_of_map same.firsts c).trans there
  outcomes run _ there := (outcome?_of_map (same.records ▸ rfl) run).trans there
  journal := same.journal ▸ List.suffix_rfl

theorem post (loop : Nat) : Grown w (w.post loop j) :=
  of_futures (post_sameRuns loop) (fun _ _ there => (settlement?_post loop).trans there)
    (fun _ _ there => by simpa only [kind?, purpose?_post] using there)
    (fun _ _ there => by simpa only [loop?, future?_post] using there)

theorem newFuture (purpose : Purpose) : Grown w (w.newFuture purpose).2 := by
  refine of_futures (newFuture_sameRuns purpose)
    (fun _ _ there => (settlement?_newFuture purpose).trans there) ?_ ?_
  · intro f k there
    have old : f ≠ w.futures.size := by
      rintro rfl
      simp [kind?, World.purpose?, World.future?] at there
    simpa only [kind?, purpose?_newFuture, if_neg old] using there
  · intro f n there
    have old : f ≠ w.futures.size := by
      rintro rfl
      simp [loop?, World.future?] at there
    simpa only [loop?, future?_newFuture, if_neg old] using there

theorem settle : Grown w (w.settle f s) := by
  refine of_futures settle_sameRuns ?_ ?_ ?_
  · intro g s' there
    rcases settlement?_settle (w := w) (f := f) (s := s) g with same | ⟨-, none, -⟩
    · exact same.trans there
    · rw [none] at there
      cases there
  · exact fun _ _ there => by simpa only [kind?, purpose?_settle] using there
  · intro g n there
    unfold loop? at there ⊢
    rw [future?_settle]
    split
    · have same : (fun x : Future => x.loop) ∘ Future.settledAs s = fun x => x.loop := by
        funext x
        simp only [Function.comp, Future.settledAs]
        split <;> rfl
      rw [Option.map_map, same]
      exact there
    · exact there

theorem onSettled : Grown w (w.onSettled f j) := by
  refine of_futures onSettled_sameRuns (fun _ _ there => settlement?_onSettled.trans there)
    (fun _ _ there => by simpa only [kind?, purpose?_onSettled] using there) ?_
  intro g n there
  unfold loop? at there ⊢
  rw [future?_onSettled]
  split
  · have same : (fun x : Future => x.loop) ∘ Future.calling j = fun x => x.loop := by
      funext x
      simp only [Function.comp, Future.calling]
      split <;> rfl
    rw [Option.map_map, same]
    exact there
  · exact there

theorem repurpose {p q : Purpose} (own : w.purpose? f = some p) (same : q.kind = p.kind) :
    Grown w (w.repurpose f q) := by
  refine of_futures (repurpose_sameRuns q) (fun _ _ there => settlement?_repurpose.trans there) ?_
    fun _ _ there => loop?_repurpose.trans there
  intro g k there
  unfold kind? at there ⊢
  rw [purpose?_repurpose]
  split
  · rename_i here
    subst here
    rw [own] at there ⊢
    exact (congrArg some same).trans there
  · exact there

theorem schedule (ticks : Nat) : Grown w (w.schedule ticks j) :=
  of_futures (schedule_sameRuns ticks) (fun _ _ there => there) (fun _ _ there => there)
    (fun _ _ there => there)

theorem newTask (r : Routine) : Grown w (w.newTask r).2 := (newFuture _).trans (post _)

theorem setPosition (p : Position) (waiting : Option FutureId) :
    Grown w (w.setPosition f p waiting) := by
  unfold World.setPosition
  split
  · rename_i own
    exact repurpose own rfl
  · exact refl w

theorem newCompletion (d : Descriptor) : Grown w (w.newCompletion d).2 := by
  have added {w : World} (x : Completion) : Grown w (w.addCompletion x) := by
    refine ⟨fun _ _ h => h, fun _ _ h => h, fun _ _ h => h, ?_, fun _ _ h => h, List.suffix_rfl⟩
    intro c f there
    have old : c ≠ w.completions.size := by
      rintro rfl
      simp [first?, completion?] at there
    simpa only [first?, completion?, addCompletion, Array.getElem?_push, if_neg old] using there
  obtain ⟨r, -, same⟩ | same := newCompletion_cases (w := w) (d := d) <;> rw [same]
  · exact added _
  · exact (newFuture _).trans (added _)

theorem addRecord (r : Record) : Grown w (w.addRecord r) := by
  refine ⟨fun _ _ h => h, fun _ _ h => h, fun _ _ h => h, fun _ _ h => h, ?_, List.suffix_rfl⟩
  intro run f there
  have old : run ≠ w.records.size := by
    rintro rfl
    simp [outcome?, World.record?] at there
  simpa only [outcome?, record?, World.addRecord, Array.getElem?_push, if_neg old] using there

theorem scripted (h : Scripted w w') : Grown w w' := by
  induction h with
  | aside same futures agenda _ =>
    exact of_parts futures same.firsts (same.records ▸ rfl) (same.journal ▸ List.suffix_rfl)
  | reported _ _ _ => exact settle
  | postponed ticks _ _ => exact schedule ticks
  | queued _ _ => exact post _
  | made => exact newFuture _
  | timed ticks _ => exact (newFuture _).trans (schedule ticks)
  | settled _ _ same futures agenda =>
    have aside := of_parts futures same.firsts (same.records ▸ rfl) (same.journal ▸ List.suffix_rfl)
    exact ((newFuture _).trans aside).trans settle
  | trans _ _ ih ih' => exact ih.trans ih'

theorem newJoint (chains : List FutureId) : Grown w (w.newJoint chains).2 := by
  have registered (l : List FutureId) (w : World) (g : FutureId) :
      Grown w (l.foldl (fun w child => w.onSettled child (.childEnded g child)) w) := by
    induction l generalizing w with
    | nil => exact refl w
    | cons c rest ih => exact onSettled.trans (ih _)
  unfold World.newJoint
  dsimp only
  split
  · exact (newFuture _).trans settle
  · exact (newFuture _).trans (registered chains _ _)

theorem effect {notes : List Note} {tasks : List (FutureId × Routine)}
    (h : Effect notes tasks w w') : Grown w w' := by
  induction h with
  | kept d => exact of_sameLoop d.loop
  | scripted h => exact scripted h
  | described d => exact newCompletion d
  | recorded r _ _ => exact (newFuture _).trans (addRecord r)
  | tasked r _ => exact newTask r
  | watched _ _ _ _ _ => exact (of_sameLoop (note_loop _ _)).trans onSettled
  | joined _ _ => exact newJoint _
  | waited f => exact (newFuture _).trans onSettled
  | concluded _ _ _ => exact (of_sameLoop (setStatus_loop _ _)).trans settle
  | failed _ _ _ _ => exact settle
  | trans _ _ ih ih' => exact ih.trans ih'

theorem aside (futures : w'.futures = w.futures) (completions : w'.completions = w.completions)
    (records : w'.records = w.records) (journal : w'.journal = w.journal) : Grown w w' :=
  of_parts futures (completions ▸ rfl) (records ▸ rfl) (journal ▸ List.suffix_rfl)

theorem raisedTo (n : Nat) : Grown w (w.raisedTo n) := aside rfl rfl rfl rfl

theorem focusOn (f : Focus) : Grown w (w.focusOn f) := aside rfl rfl rfl rfl

end Grown

theorem Effect.made {notes : List Note} {tasks : List (FutureId × Routine)}
    (h : Effect notes tasks w w') (x : FutureId × Routine) (member : x ∈ tasks) :
    w.futures.size ≤ x.1 ∧ x.1 < w'.futures.size := by
  induction h with
  | tasked r _ =>
    obtain rfl := List.mem_singleton.mp member
    exact ⟨Nat.le_refl _, size_newTask r ▸ Nat.lt_succ_self _⟩
  | trans first second ih ih' =>
    rcases List.mem_append.mp member with later | earlier
    · obtain ⟨new, known⟩ := ih' later
      exact ⟨Nat.le_trans (Grown.effect first).size_le new, known⟩
    · obtain ⟨new, known⟩ := ih earlier
      exact ⟨new, Nat.lt_of_lt_of_le known (Grown.effect second).size_le⟩
  | _ => cases member

end World

end Conductor
