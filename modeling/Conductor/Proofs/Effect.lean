import Conductor.Proofs.Scripted

/-!
# What a task does between two moves

Whatever a routine, a frame or a job does before the machine moves on is made of a few elementary
changes. An effect tells which happenings are noted in the journal, in the order of the journal, and
which tasks are made. Only a run that has not settled calls actions, begins nested sequences and
merges payloads.
-/

namespace Conductor

abbrev Note := RunId × Happening

namespace World

def stamp (w : World) (x : Note) : RunId × Nat × Happening := (x.1, w.clock, x.2)

def notes (w : World) : List Note := w.journal.map fun x => (x.1, x.2.2)

end World

def Value.isMergeable : Value → Bool
  | .atom .null | .dict _ | .proxy _ => true
  | _ => false

/-- Whether something was written to an attribute by which a run hears of the end of a body. -/
def Descriptor.isRebound (d : Descriptor) : Bool :=
  ["_is_done", "_future", "_fail"].any fun name => (d.written.lookup name).isSome

/-- Whether a run may have something happen at a state. -/
def Happening.Fits (w : World) (run : RunId) : Happening → Prop
  | .called _ _ | .spawned _ => w.isSettled run = false
  | .completed _ r _ => w.isSettled run = false ∧ r.payload.isMergeable
  | .unheard _ _ d => d.isRebound
  | .settled _ => False
  | _ => True

/-- The settlement of its outcome that suits a settled run. -/
def Status.Verdict (run : RunId) : Status → Settlement → Prop
  | .resolved _, s => s = .value (.record run)
  | .rejected _ e, s => s = .failed e ∧ e.fault.nature ≠ .stopIteration
  | .running, _ => False

theorem Status.Verdict.isSettled {run : RunId} {s : Status} {v : Settlement}
    (h : s.Verdict run v) : s.isSettled := by
  cases s <;> simp_all [Status.Verdict, Status.isSettled]

/-- An outcome that a routine can have: the end of an iteration leaves none. -/
def Outcome.Proper (o : Outcome) : Prop := ∀ e, o = .error e → e.fault.nature ≠ .stopIteration

def Routine.begins : Routine → Bool
  | .script _ _ | .runner _ | .execute _ | .delayed _ _ | .drive _ => true
  | .branches _ _ _ _ | .member _ _ _ => true
  | _ => false

namespace World

def raisedTo (w : World) (n : Nat) : World := { w with raisedCount := n }

def focusOn (w : World) (f : Focus) : World := { w with focus := f }

/-- What stays when a run keeps its books: everything about the loop, while the journal grows. -/
structure SameLoop (w w' : World) : Prop where
  focus : w'.focus = w.focus
  futures : w'.futures = w.futures
  agenda : w'.agenda = w.agenda
  firsts : w'.completions.map Completion.future? = w.completions.map Completion.future?
  outcomes : w'.records.map (·.outcome) = w.records.map (·.outcome)
  journal : w.journal <:+ w'.journal
  clock : w'.clock = w.clock

inductive Deed : List Note → World → World → Prop where
  | noted {w : World} {run : RunId} {h : Happening} (fits : h.Fits w run) :
      Deed [(run, h)] w (w.note run h)
  /-- A run is settled, but its outcome refuses that. -/
  | refused {w : World} {run : RunId} {r : Record} {s : Status} (known : w.record? run = some r)
      (running : r.status = .running) (past : s.isSettled) (why : w.isPending r.outcome = false ∨
        ∃ ms e, s = .rejected ms e ∧ e.fault.nature = .stopIteration)
      (took : s.duration = w.elapsed r.started) :
      Deed [(run, .settled s)] w (w.setStatus run s)
  | marked {w : World} (nodes : Array NodeState) : Deed [] w { w with nodes }

inductive Effect : List Note → List (FutureId × Routine) → World → World → Prop where
  | kept {notes : List Note} {w w' : World} (d : Deed notes w w') : Effect notes [] w w'
  | scripted {w w' : World} (h : Scripted w w') : Effect [] [] w w'
  | described {w : World} (d : Descriptor) : Effect [] [] w (w.newCompletion d).2
  /-- A record is made with the future of its caller. -/
  | recorded {w : World} (r : Record) (own : r.outcome = w.futures.size)
      (running : r.status = .running) :
      Effect [] [] w ((w.newFuture (.plain (.outcome w.records.size))).2.addRecord r)
  | tasked {w : World} (r : Routine) (begins : r.begins) :
      Effect [] [(w.futures.size, r)] w (w.newTask r).2
  /-- The end of a body that nothing waits for so far is awaited. -/
  | watched {w : World} {f : FutureId} (run : RunId) (node : Node) (c : CompletionId)
      (explicit : Bool) (unseen : ∀ j ∈ w.jobs, j.source? ≠ some f) :
      Effect [(run, .began node.head (some f))] [] w
        ((w.note run (.began node.head (some f))).onSettled f (.bodyEnded run node c explicit f))
  | joined {w : World} {chains : List FutureId} (distinct : chains.Nodup)
      (known : ∀ c ∈ chains, c < w.futures.size) : Effect [] [] w (w.newJoint chains).2
  /-- A future is made that waits for another one. -/
  | waited {w : World} (f : FutureId) :
      Effect [] [] w ((w.newFuture (.plain (.waiter f))).2.onSettled f (.release w.futures.size f))
  /-- A run is settled, and so is its outcome. -/
  | concluded {w : World} {run : RunId} {r : Record} {s : Status} {v : Settlement}
      (known : w.record? run = some r) (running : r.status = .running) (verdict : s.Verdict run v)
      (took : s.duration = w.elapsed r.started) :
      Effect [(run, .settled s)] [] w ((w.setStatus run s).settle r.outcome v)
  /-- A concurrent descriptor is failed. -/
  | failed {w : World} {c : CompletionId} {x : Completion} {f : FutureId}
      (known : w.completion? c = some x) (own : x.future? = some f) (e : Raised)
      (proper : e.fault.nature ≠ .stopIteration) : Effect [] [] w (w.settle f (.failed e))
  | trans {w₁ w₂ w₃ : World} {notes₁ notes₂ : List Note} {tasks₁ tasks₂ : List (FutureId × Routine)}
      (first : Effect notes₁ tasks₁ w₁ w₂) (second : Effect notes₂ tasks₂ w₂ w₃) :
      Effect (notes₂ ++ notes₁) (tasks₂ ++ tasks₁) w₁ w₃

variable {w w' : World} {notes : List Note} {tasks : List (FutureId × Routine)}

theorem setStatus_loop (run : RunId) (s : Status) : SameLoop w (w.setStatus run s) := by
  refine ⟨rfl, rfl, rfl, rfl, ?_, List.suffix_cons _ _, rfl⟩
  apply Array.ext_getElem?
  intro i
  simp only [World.setStatus, World.note, Array.getElem?_map, Array.getElem?_modify]
  split
  · rw [Option.map_map]
    rfl
  · rfl

theorem note_loop (run : RunId) (h : Happening) : SameLoop w (w.note run h) :=
  ⟨rfl, rfl, rfl, rfl, rfl, List.suffix_cons _ _, rfl⟩

theorem Deed.loop (d : Deed notes w w') : SameLoop w w' := by
  cases d with
  | noted _ => exact note_loop _ _
  | refused _ _ _ _ => exact setStatus_loop _ _
  | marked _ => exact ⟨rfl, rfl, rfl, rfl, rfl, List.suffix_rfl, rfl⟩

theorem beginNode_loop (plan : Plan) (run : RunId) (node : Node) :
    SameLoop w (w.beginNode plan run node) := by
  unfold beginNode
  dsimp only
  split <;> exact ⟨rfl, rfl, rfl, rfl, rfl, List.suffix_rfl, rfl⟩

theorem newCompletion_cases {d : Descriptor} :
    (∃ r, (∀ f, r ≠ .first f) ∧ (w.newCompletion d).2 = w.addCompletion ⟨d, r⟩) ∨
    (w.newCompletion d).2
      = (w.newFuture (.plain .report)).2.addCompletion ⟨d, .first w.futures.size⟩ := by
  unfold newCompletion
  cases d.policy with
  | plain => exact .inl ⟨.nothing, by simp, rfl⟩
  | sequential => exact .inl ⟨.latest none false, by simp, rfl⟩
  | concurrent => exact .inr rfl

theorem newCompletion_jobs (d : Descriptor) : (w.newCompletion d).2.jobs = w.jobs := by
  obtain ⟨r, -, same⟩ | same := newCompletion_cases (w := w) (d := d)
  · rw [same]
    rfl
  · rw [same]
    exact (jobs_congr (w := (w.newFuture (.plain .report)).2) rfl rfl).trans (jobs_newFuture _)

theorem newCompletion_size (d : Descriptor) :
    w.futures.size ≤ (w.newCompletion d).2.futures.size := by
  obtain ⟨r, -, same⟩ | same := newCompletion_cases (w := w) (d := d)
  · rw [same]
    exact Nat.le_refl _
  · rw [same]
    exact Nat.le_trans (Nat.le_succ _) (Nat.le_of_eq (size_newFuture (.plain .report)).symm)

theorem newCompletion_records (d : Descriptor) : (w.newCompletion d).2.records = w.records := by
  obtain ⟨r, -, same⟩ | same := newCompletion_cases (w := w) (d := d) <;> rw [same] <;> rfl

/-! ### How far runs are -/

theorem record?_congr (records : w'.records = w.records) (run : RunId) :
    w'.record? run = w.record? run := by
  rw [record?, record?, records]

theorem isSettled_congr (records : w'.records = w.records) (run : RunId) :
    w'.isSettled run = w.isSettled run := by
  rw [isSettled, isSettled, status, status, record?_congr records]

theorem record?_setStatus (run other : RunId) (s : Status) :
    (w.setStatus run s).record? other =
      if other = run then (w.record? other).map fun r => { r with status := s } else w.record? other := by
  simp only [record?, setStatus, note, Array.getElem?_modify]
  by_cases same : other = run
  · rw [if_pos same, if_pos same.symm]
  · rw [if_neg same, if_neg fun eq => same eq.symm]

theorem notes_congr (journal : w'.journal = w.journal) : w'.notes = w.notes := by
  rw [World.notes, World.notes, journal]

theorem notes_stamped (journal : w'.journal = notes.map w.stamp ++ w.journal) : w'.notes = notes ++ w.notes := by
  have bare : (fun x => (x.1, x.2.2)) ∘ w.stamp = id := rfl
  rw [World.notes, World.notes, journal, List.map_append, List.map_map, bare, List.map_id]

/-! ### Elementary effects -/

namespace Effect

theorem refl (w : World) : Effect [] [] w w := .scripted (.refl w)

theorem note {run : RunId} {h : Happening} (fits : h.Fits w run) :
    Effect [(run, h)] [] w (w.note run h) := .kept (.noted fits)

theorem began (run : RunId) (h : Head) (body : Option FutureId) :
    Effect [(run, .began h body)] [] w (w.note run (.began h body)) := .note trivial

theorem log (e : LogEntry) : Effect [] [] w (w.log e) := .scripted (scripted_log e)

theorem raise (f : Fault) : Effect [] [] w (w.raise f).2 := .scripted (scripted_raise f)

theorem emitStray (f : Fault) : Effect [] [] w (w.emitStray f) := .scripted (scripted_emit _ _)

theorem heap {heap : Heap} (more : w.heap.dicts.size ≤ heap.dicts.size) : Effect [] [] w { w with heap } :=
  .scripted (aside_of_heap more)

theorem record (c : CompletionId) (x : Reported) : Effect [] [] w (w.record c x).2 :=
  .scripted (scripted_record c x)

theorem focus (h : Effect notes tasks w w') : w'.focus = w.focus := by
  induction h with
  | kept d => exact d.loop.focus
  | scripted h => exact h.sameRuns.focus
  | described d =>
    obtain ⟨r, -, same⟩ | same := newCompletion_cases (d := d)
    · rw [same]
      rfl
    · rw [same]
      rfl
  | recorded _ _ _ => rfl
  | tasked _ _ => exact (newTask_sameRuns _).focus
  | watched _ _ _ _ _ => exact onSettled_sameRuns.focus
  | joined _ _ => exact (newJoint_sameRuns _).focus
  | waited _ => exact onSettled_sameRuns.focus
  | concluded _ _ _ => exact settle_sameRuns.focus
  | failed _ _ _ _ => exact settle_sameRuns.focus
  | trans _ _ ih ih' => exact ih'.trans ih

theorem clock (h : Effect notes tasks w w') : w'.clock = w.clock := by
  induction h with
  | kept d => exact d.loop.clock
  | scripted h => exact h.sameRuns.clock
  | described d =>
    obtain ⟨r, -, same⟩ | same := newCompletion_cases (d := d)
    · rw [same]
      rfl
    · rw [same]
      rfl
  | recorded _ _ _ => rfl
  | tasked _ _ => exact (newTask_sameRuns _).clock
  | watched _ _ _ _ _ => exact onSettled_sameRuns.clock
  | joined _ _ => exact (newJoint_sameRuns _).clock
  | waited _ => exact onSettled_sameRuns.clock
  | concluded _ _ _ => exact settle_sameRuns.clock
  | failed _ _ _ _ => exact settle_sameRuns.clock
  | trans _ _ ih ih' => exact ih'.trans ih

theorem stamped (h : Effect notes tasks w w') : w'.journal = notes.map w.stamp ++ w.journal := by
  induction h with
  | kept d => cases d <;> rfl
  | scripted h => exact h.sameRuns.journal
  | described d =>
    obtain ⟨r, -, same⟩ | same := newCompletion_cases (d := d) <;> rw [same] <;> rfl
  | recorded _ _ _ => rfl
  | tasked r _ => exact (newTask_sameRuns r).journal
  | watched _ _ _ _ _ => exact onSettled_sameRuns.journal
  | joined _ _ => exact (newJoint_sameRuns _).journal
  | waited _ => exact onSettled_sameRuns.journal
  | concluded _ _ _ _ => exact settle_sameRuns.journal
  | failed _ _ _ _ => exact settle_sameRuns.journal
  | trans first _ ih ih' =>
    have same : stamp _ = stamp _ := funext fun x => congrArg (fun time => (x.1, time, x.2)) first.clock
    rw [ih', ih, List.map_append, List.append_assoc, same]

theorem noted (h : Effect notes tasks w w') : w'.notes = notes ++ w.notes := notes_stamped h.stamped

end Effect

end World

end Conductor
