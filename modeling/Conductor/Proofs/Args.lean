import Conductor.Proofs.Mild
import Conductor.Proofs.Selection

/-!
# The args of a run

A run starts from a copy of the entries it is given, and from then on only the executor writes its args:
each completion merges one payload. So they are, at any moment, what the payloads make that the journal
tells of, one merged after the other.
-/

namespace Conductor

/-! ### Merging -/

namespace Entries

variable {target source : Entries} {k l : Key} {v : Value}

theorem get?_insert : (insert target k v).get? l = if k.same l then some v else target.get? l := by
  induction target with
  | nil =>
    by_cases same : k.same l <;> simp [insert, get?, same]
  | cons e rest ih =>
    obtain ⟨k', v'⟩ := e
    unfold insert
    split
    · rename_i own
      have swapped : k'.same l = k.same l := by
        rw [Bool.eq_iff_iff, Key.same_iff, Key.same_iff, Key.same_iff.mp own]
      by_cases same : k.same l <;> simp [get?, swapped, same]
    · rename_i other
      by_cases here : k'.same l
      · have apart : ¬ k.same l := fun same => other
          (Key.same_iff.mpr ((Key.same_iff.mp here).trans (Key.same_iff.mp same).symm))
        simp [get?, here, apart]
      · simpa [get?, List.find?_cons, here] using ih

/-- What a merge leaves under a key: the last value that is written there, or the old one. -/
theorem get?_merge : (target.merge source).get? k = (get? source.reverse k).or (target.get? k) := by
  induction source generalizing target with
  | nil => rfl
  | cons e rest ih =>
    obtain ⟨l, v⟩ := e
    rw [merge, List.foldl_cons, ← merge, ih, get?_insert, List.reverse_cons]
    simp only [get?, List.find?_append, Option.map_or, Option.or_assoc]
    congr 1
    by_cases same : l.same k <;> simp [same]

theorem keys_insert : target.keys <+: (insert target k v).keys := by
  induction target with
  | nil => exact List.nil_prefix
  | cons e rest ih =>
    unfold insert
    split
    · exact List.prefix_rfl
    · exact (List.prefix_cons_inj _).mpr ih

theorem keys_merge : target.keys <+: (target.merge source).keys := by
  induction source generalizing target with
  | nil => exact List.prefix_rfl
  | cons e rest ih => exact keys_insert.trans ih

theorem foldl_merge (payloads : List Entries) : payloads.foldl merge target = target.merge payloads.flatten := by
  induction payloads generalizing target with
  | nil => rfl
  | cons p rest ih => rw [List.foldl_cons, ih, List.flatten_cons, merge, merge, merge, List.foldl_append]

end Entries

namespace Heap

variable {h h' : Heap} {r s : DictRef} {v : Value}

theorem dict_merge_self (done : h.merge r v = .ok h') (known : r.index < h.dicts.size) :
    h'.dict r = (h.dict r).merge ((h.mapping? v).getD []) := by
  unfold merge at done
  split at done
  · obtain rfl := Except.ok.inj done
    rfl
  · split at done
    · rename_i entries found
      obtain rfl := Except.ok.inj done
      rw [dict_setDict_self known, found]
      rfl
    · cases done

theorem dict_merge_other (done : h.merge r v = .ok h') (other : s ≠ r) : h'.dict s = h.dict s := by
  unfold merge at done
  split at done
  · obtain rfl := Except.ok.inj done
    rfl
  · split at done
    · obtain rfl := Except.ok.inj done
      exact dict_setDict_other other
    · cases done

end Heap

namespace World

/-! ### What is merged -/

def payload? (run : RunId) : Note → Option Entries
  | (other, .completed _ _ payload) => if other = run then some payload else none
  | _ => none

/-- The payloads that notes tell to be merged for a run, in the order in which that happens. -/
def payloads (run : RunId) (notes : List Note) : List Entries := (notes.filterMap (payload? run)).reverse

/-- What the payloads of a run make of entries, one merged after the other. -/
def tally (run : RunId) (entries : Entries) (notes : List Note) : Entries :=
  (payloads run notes).foldl Entries.merge entries

variable {plan : Plan} {w w' : World} {run other : RunId} {entries : Entries} {notes : List Note}
  {h : Head} {r : Result} {payload : Entries} {n : Node} {given : Value}

theorem tally_cons {x : Note} : tally run entries (x :: notes) =
    (payload? run x).elim (tally run entries notes) (tally run entries notes).merge := by
  unfold tally payloads
  cases found : payload? run x <;> simp [found]

theorem tally_completed : tally run entries ((run, .completed h r payload) :: notes) =
    (tally run entries notes).merge payload := by
  rw [tally_cons, payload?, if_pos rfl]
  rfl

theorem tally_other {x : Note} (apart : x.1 ≠ run) : tally run entries (x :: notes) = tally run entries notes := by
  obtain ⟨other, x⟩ := x
  rw [tally_cons]
  cases x <;> simp_all [payload?]

theorem tally_called {args : Entries} : tally run entries ((other, .called h args) :: notes) =
    tally run entries notes := tally_cons

theorem tally_counts : tally run entries (notes.filter fun x => x.2.counts) = tally run entries notes := by
  unfold tally payloads
  rw [List.filterMap_filter]
  congr 3
  funext x
  obtain ⟨other, x⟩ := x
  cases x <;> rfl

theorem keys_tally (later : List Note) :
    (tally run entries notes).keys <+: (tally run entries (later ++ notes)).keys := by
  induction later with
  | nil => exact List.prefix_rfl
  | cons x rest ih =>
    refine ih.trans ?_
    rw [List.cons_append, tally_cons]
    cases payload? run x with
    | none => exact List.prefix_rfl
    | some payload => exact Entries.keys_merge

theorem get?_tally (k : Key) : (tally run entries notes).get? k =
    (Entries.get? (payloads run notes).flatten.reverse k).or (entries.get? k) := by
  rw [tally, Entries.foldl_merge, Entries.get?_merge]

/-! ### No dictionary goes -/

theorem Scripted.more (h : Scripted w w') : w.heap.dicts.size ≤ w'.heap.dicts.size := by
  induction h with
  | aside _ _ _ more => exact more
  | reported r _ _ => exact Nat.le_of_eq (by rw [(Untouched.settle _ (.value (.reported r))).heap])
  | queued _ _ => exact Nat.le_of_eq (by rw [(Untouched.post _).heap])
  | settled s _ _ _ _ heap => exact Nat.le_of_eq (by rw [(Untouched.settle _ s).heap, heap])
  | postponed _ _ _ | made | timed _ _ => exact Nat.le_refl _
  | trans _ _ ih ih' => exact Nat.le_trans ih ih'

theorem Effect.more {tasks : List (FutureId × Routine)} (h : Effect notes tasks w w') :
    w.heap.dicts.size ≤ w'.heap.dicts.size := by
  have same {w w' : World} (aside : Aside w w') : w.heap.dicts.size ≤ w'.heap.dicts.size :=
    Nat.le_of_eq (by rw [aside.heap])
  induction h with
  | kept d => cases d <;> exact Nat.le_refl _
  | scripted h => exact h.more
  | described d => exact same (.newCompletion d)
  | recorded _ _ _ => exact Nat.le_refl _
  | tasked r _ => exact same (.newTask r)
  | watched run node _ _ _ => exact same ((Aside.note run rfl).trans (.onSettled _ _))
  | joined _ _ => exact same (.newJoint _)
  | waited f => exact same ((Aside.newFuture _).trans (.onSettled _ _))
  | concluded _ _ _ => exact same ((Aside.setStatus _ _).trans (.settle _ _))
  | failed _ _ _ _ => exact same (.settle _ _)
  | trans _ _ ih ih' => exact Nat.le_trans ih ih'

theorem step_more (steady : w.Steady) (stepped : w.step plan = some w') :
    w.heap.dicts.size ≤ w'.heap.dicts.size := by
  have same {w w' : World} (aside : Aside w w') : w.heap.dicts.size ≤ w'.heap.dicts.size :=
    Nat.le_of_eq (by rw [aside.heap])
  cases step_change steady stepped with
  | @worked w₁ _ _ _ h past =>
    refine Nat.le_trans h.more ?_
    cases past with
    | focused f _ _ _ => exact Nat.le_refl _
    | suspended _ _ => exact same (.suspend _ _)
    | @yielded t stack _ =>
      have waits := (Aside.setPosition (w := w₁) t (.suspended stack) none).trans
        (.post (j := .resume t) w₁.agenda.loop)
      exact Nat.le_of_eq (congrArg (·.dicts.size) waits.heap.symm)
    | ended _ => exact same (.endTask _ _)
  | @handled w₁ _ _ _ next h =>
    refine Nat.le_trans (same (.nextJob next)) ?_
    cases h with
    | effect h _ => exact h.more
    | resumed => exact same (.resumeTask _ _)
    | woken _ => exact same ((Aside.deliver _).trans (.resumeTask _ _))
    | counted => exact same (.childEnded _ _)
    | freed => exact same (.settle _ _)
    | matured n _ =>
      have aged : Aside w₁ (w₁.raisedTo n) := ⟨rfl, rfl, rfl, rfl⟩
      exact same (aged.trans (.settle _ _))
    | stopped => exact Nat.le_refl _
  | turned _ next => exact same (.nextTurn next)

/-! ### The args of different runs -/

/-- Whether each run has a dictionary of its own for its args. -/
structure Apart (w : World) : Prop where
  stored : ∀ run < w.records.size, (w.argsOf run).index < w.heap.dicts.size
  own : ∀ run < w.records.size, ∀ other < w.records.size, w.argsOf run = w.argsOf other → run = other

theorem records_size_congr (args : w'.records.map (·.args) = w.records.map (·.args)) :
    w'.records.size = w.records.size := by
  simpa using congrArg Array.size args

theorem Apart.congr (apart : Apart w) (args : w'.records.map (·.args) = w.records.map (·.args))
    (more : w.heap.dicts.size ≤ w'.heap.dicts.size) : Apart w' := by
  have size := records_size_congr args
  have same := argsOf_congr args
  refine ⟨fun run known => ?_, fun run known other known' eq => ?_⟩
  · rw [same]
    exact Nat.lt_of_lt_of_le (apart.stored run (size ▸ known)) more
  · rw [same, same] at eq
    exact apart.own run (size ▸ known) other (size ▸ known') eq

theorem argsOf_push {r : Record} (records : w'.records = w.records.push r) (run : RunId) :
    w'.argsOf run = if run = w.records.size then r.args else w.argsOf run := by
  unfold argsOf record?
  rw [records, Array.getElem?_push]
  by_cases new : run = w.records.size <;> simp [new]

theorem Begun.apart (begun : Begun w entries w') (apart : Apart w) : Apart w' := by
  obtain @⟨r, heap, args, records, -, -⟩ := begun
  have place := argsOf_push records
  have size : w'.records.size = w.records.size + 1 := by rw [records, Array.size_push]
  have room : w'.heap.dicts.size = w.heap.dicts.size + 1 := by simp [heap, Heap.newDict]
  have fresh : r.args.index = w.heap.dicts.size := by rw [args, Heap.newDict]
  have old {run : RunId} (known : run < w'.records.size) (other : run ≠ w.records.size) :
      run < w.records.size := Nat.lt_of_le_of_ne (Nat.le_of_lt_succ (Nat.lt_of_lt_of_eq known size)) other
  refine ⟨fun run known => ?_, fun run known other known' eq => ?_⟩
  · rw [place, room]
    split
    · rw [fresh]
      exact Nat.lt_succ_self _
    · rename_i earlier
      exact Nat.lt_succ_of_lt (apart.stored run (old known earlier))
  · rw [place, place] at eq
    split at eq <;> split at eq
    · rename_i new new'
      rw [new, new']
    · rename_i _ earlier
      have stored := apart.stored other (old known' earlier)
      rw [← eq, fresh] at stored
      exact absurd stored (Nat.lt_irrefl _)
    · rename_i earlier _
      have stored := apart.stored run (old known earlier)
      rw [eq, fresh] at stored
      exact absurd stored (Nat.lt_irrefl _)
    · rename_i earlier earlier'
      exact apart.own run (old known earlier) other (old known' earlier') eq

theorem Prelude.args (prelude : Prelude plan w w') : w'.records.map (·.args) = w.records.map (·.args) := by
  cases prelude with
  | aside aside => exact aside.args
  | @called w₁ w₂ other n aside begun =>
    subst begun
    change (w₁.beginNode plan other n).records.map (·.args) = _
    rw [beginNode_records, aside.args]

theorem Sequel.args (sequel : Sequel plan w w') : w'.records.map (·.args) = w.records.map (·.args) := by
  cases sequel with
  | aside aside => exact aside.args
  | merged other n r started first done rest =>
    rw [rest.args, (complete_merged done).records, first.args]

theorem Prelude.heap (prelude : Prelude plan w w') : w'.heap = w.heap := by
  cases prelude with
  | aside aside => exact aside.heap
  | @called w₁ w₂ other n aside begun =>
    subst begun
    exact (beginNode_marked plan other n).heap.trans aside.heap

theorem Sequel.size (sequel : Sequel plan w w') : w'.heap.dicts.size = w.heap.dicts.size := by
  cases sequel with
  | aside aside => rw [aside.heap]
  | merged other n r started first done rest =>
    rw [rest.heap, Heap.merge_size (complete_merged done).heap, first.heap]

theorem Phases.args (phases : Phases plan w w') : w'.records.map (·.args) = w.records.map (·.args) := by
  rw [phases.sequel.args, phases.played.records, phases.prelude.args]

/-- A move by which no dictionary goes. Steps are such moves; who supplies values may only add some. -/
structure Keeping (plan : Plan) (w w' : World) : Prop where
  move : Move plan w w'
  more : w.step plan ≠ some w' → w.heap.dicts.size ≤ w'.heap.dicts.size

theorem Keeping.size_le (keeping : Keeping plan w w') (steady : w.Steady) :
    w.heap.dicts.size ≤ w'.heap.dicts.size := by
  by_cases stepped : w.step plan = some w'
  · exact step_more steady stepped
  · exact keeping.more stepped

/-- What a move does to the args of runs: nothing, or a run is made that has its own. -/
theorem Move.args (m : Move plan w w') : w'.records.map (·.args) = w.records.map (·.args) ∨
    ∃ u entries, (u = w ∨ u = w.resetNodes) ∧ Begun u entries w' := by
  rcases m.aside with stepped | ⟨heap, rfl⟩ | rfl | aside
  · by_cases starts : w.focus.starts
    · obtain ⟨args, u, same, ⟨f, -, aside⟩ | ⟨entries, -, begun⟩⟩ := step_starts stepped starts
      · left
        rw [aside.args]
        rcases same with rfl | rfl <;> rfl
      · exact .inr ⟨u, entries, same, begun⟩
    · exact .inl (step_phases stepped (by simpa using starts)).args
  · exact .inl rfl
  · exact .inl rfl
  · exact .inl aside.args

theorem Move.argsOf (m : Move plan w w') (known : run < w.records.size) : w'.argsOf run = w.argsOf run := by
  rcases m.args with args | ⟨u, entries, same, begun⟩
  · exact argsOf_congr args run
  · obtain @⟨r, -, -, records, -, -⟩ := begun
    have unchanged : u.records = w.records := by
      rcases same with rfl | rfl <;> rfl
    rw [argsOf_push records, unchanged, if_neg (Nat.ne_of_lt known)]
    exact argsOf_congr (by rw [unchanged]) run

theorem Apart.keeping (apart : Apart w) (steady : w.Steady) (keeping : Keeping plan w w') : Apart w' := by
  rcases keeping.move.args with args | ⟨u, entries, rfl | rfl, begun⟩
  · exact apart.congr args (keeping.size_le steady)
  · exact begun.apart apart
  · exact begun.apart (apart.congr rfl (Nat.le_refl _))

/-- A state to which moves lead from a fresh machine by which no dictionary goes. -/
inductive Stocked (plan : Plan) : World → Prop where
  | fresh {w : World} (h : w.Fresh) : Stocked plan w
  | move {w w' : World} (h : Stocked plan w) (keeping : Keeping plan w w') : Stocked plan w'

theorem Stocked.reachable (stocked : Stocked plan w) : Reachable plan w := by
  induction stocked with
  | fresh h => exact .fresh h
  | move _ keeping ih => exact .move ih keeping.move

theorem Stocked.apart (stocked : Stocked plan w) : Apart w := by
  induction stocked with
  | fresh h => exact ⟨fun run known => by simp [h.records] at known, fun run known => by simp [h.records] at known⟩
  | move h keeping ih => exact ih.keeping h.reachable.sound.steady keeping

/-! ### The tally of a run -/

/-- A move in which nobody but the executor writes a dictionary: not the user code, nor those who supply
values. -/
structure Sparing (plan : Plan) (d : DictRef) (w w' : World) : Prop extends Keeping plan w w' where
  code : w.step plan = some w' → (userCode plan w).2.heap.dict d = (userCode plan w).1.heap.dict d
  supply : w.step plan ≠ some w' → w'.heap.dict d = w.heap.dict d

/-- Whether the args of a run are what its payloads have made of its entries, and were so whenever it
called an action. -/
structure Tallied (w : World) (run : RunId) (entries : Entries) : Prop where
  args : w.heap.dict (w.argsOf run) = tally run entries w.course
  calls : ∀ later earlier h args, w.course = later ++ (run, .called h args) :: earlier →
    args = tally run entries earlier

theorem Tallied.congr (tallied : Tallied w run entries)
    (heap : w'.heap.dict (w'.argsOf run) = w.heap.dict (w.argsOf run))
    (course : w'.course = w.course) : Tallied w' run entries := by
  refine ⟨?_, ?_⟩
  · rw [heap, course, tallied.args]
  · rw [course]
    exact tallied.calls

theorem Tallied.called (tallied : Tallied w run entries) (other : RunId) (h : Head) :
    Tallied (w.note other (.called h (w.heap.dict (w.argsOf other)))) run entries := by
  refine ⟨?_, fun later earlier h' args split => ?_⟩
  · rw [course_called, tally_called]
    exact tallied.args
  · rw [course_called] at split
    rcases List.cons_eq_append_iff.mp split with ⟨-, same⟩ | ⟨later', -, split'⟩
    · obtain ⟨now, rfl⟩ := List.cons.inj same
      obtain ⟨rfl, now⟩ := Prod.mk.inj now
      obtain ⟨-, rfl⟩ := Happening.called.inj now
      exact tallied.args
    · exact tallied.calls later' earlier h' args split'

/-- A completion adds its payload to the tally of its own run and leaves that of others. -/
theorem Tallied.merged (tallied : Tallied w run entries) (merged : Merged other n r w w')
    (stored : (w.argsOf run).index < w.heap.dicts.size) (own : w.argsOf run = w.argsOf other → run = other) :
    Tallied w' run entries := by
  have place : w'.argsOf run = w.argsOf run := argsOf_congr (by rw [merged.records]) run
  refine ⟨?_, fun later earlier h args split => ?_⟩
  · rw [merged.course, place]
    by_cases same : other = run
    · subst same
      rw [tally_completed, Heap.dict_merge_self merged.heap stored, tallied.args]
    · rw [tally_other same, Heap.dict_merge_other merged.heap fun eq => same (own eq).symm, tallied.args]
  · rw [merged.course] at split
    rcases List.cons_eq_append_iff.mp split with ⟨-, same⟩ | ⟨later', -, split'⟩
    · cases (Prod.mk.inj (List.cons.inj same).1).2
    · exact tallied.calls later' earlier h args split'

theorem Phases.merges (phases : Phases plan w w') (reached : Reachable plan w') {rest : List Note}
    (merged : w'.course = (other, .completed h r payload) :: rest) : other < w.records.size := by
  have noted : (other, .completed h r payload) ∈ w'.course := merged ▸ List.mem_cons_self
  rw [← records_size_congr phases.args]
  exact reached.recorded .complete (List.mem_of_mem_filter noted) rfl

/-- A step that starts a run leaves all dictionaries as they are, and the args of all runs before. -/
theorem step_starts_keeps (stepped : w.step plan = some w') (starts : w.focus.starts) :
    w.heap.Keeps w'.heap ∧ w'.course = w.course ∧ ∀ run < w.records.size, w'.argsOf run = w.argsOf run := by
  obtain ⟨args, u, same, ⟨f, -, aside⟩ | ⟨entries, -, begun⟩⟩ := step_starts stepped starts
  · have unchanged : u.heap = w.heap ∧ u.course = w.course ∧ u.records = w.records := by
      rcases same with rfl | rfl <;> exact ⟨rfl, rfl, rfl⟩
    refine ⟨?_, aside.course.trans unchanged.2.1, fun run _ => argsOf_congr ?_ run⟩
    · rw [aside.heap, unchanged.1]
      exact .refl _
    · rw [aside.args, unchanged.2.2]
  · obtain @⟨r, heap, -, records, -, course⟩ := begun
    have unchanged : u.heap = w.heap ∧ u.course = w.course ∧ u.records = w.records := by
      rcases same with rfl | rfl <;> exact ⟨rfl, rfl, rfl⟩
    refine ⟨?_, course.trans unchanged.2.1, fun run known => ?_⟩
    · rw [heap, unchanged.1]
      exact .newDict _
    · rw [argsOf_push records, unchanged.2.2, if_neg (Nat.ne_of_lt known)]
      exact argsOf_congr (by rw [unchanged.2.2]) run

theorem Tallied.phases (tallied : Tallied w run entries) (phases : Phases plan w w') (reached : Reachable plan w')
    (apart : Apart w) (more : w.heap.dicts.size ≤ w'.heap.dicts.size) (known : run < w.records.size)
    (code : (userCode plan w).2.heap.dict (w.argsOf run) = (userCode plan w).1.heap.dict (w.argsOf run)) :
    Tallied w' run entries := by
  have merges {other : RunId} {h : Head} {r : Result} {payload : Entries} {rest : List Note}
      (merged : w'.course = (other, .completed h r payload) :: rest) : other < w.records.size :=
    phases.merges reached merged
  obtain ⟨prelude, played, sequel⟩ := phases
  have begun : Tallied (userCode plan w).1 run entries := by
    generalize (userCode plan w).1 = w₁ at prelude
    cases prelude with
    | aside aside => exact tallied.congr (by rw [aside.heap, argsOf_congr aside.args]) aside.course
    | @called w₁ w₂ other n aside begun =>
      subst begun
      have marked := beginNode_marked (w := w₁) plan other n
      have place : (w₁.beginNode plan other n).argsOf run = w.argsOf run :=
        argsOf_congr (by rw [beginNode_records, aside.args]) run
      refine Tallied.called (tallied.congr ?_ (marked.course.trans aside.course)) other n.head
      rw [marked.heap, aside.heap, place]
  have args : (userCode plan w).2.records.map (·.args) = w.records.map (·.args) := by
    rw [played.records, prelude.args]
  have room : w.heap.dicts.size ≤ (userCode plan w).2.heap.dicts.size := sequel.size ▸ more
  have ended : Tallied (userCode plan w).2 run entries := by
    refine begun.congr ?_ (course_congr played.journal)
    rw [argsOf_congr args, code, argsOf_congr prelude.args]
  generalize (userCode plan w).2 = w₂ at sequel args ended room
  cases sequel with
  | aside aside => exact ended.congr (by rw [aside.heap, argsOf_congr aside.args]) aside.course
  | @merged w₃ w₄ _ other n r started first done rest =>
    have merged := complete_merged done
    have known' : other < w.records.size := merges (rest.course.trans merged.course)
    have same (run : RunId) : w₃.argsOf run = w.argsOf run := argsOf_congr (first.args.trans args) run
    have before : Tallied w₃ run entries :=
      ended.congr (by rw [first.heap, argsOf_congr first.args]) first.course
    have after : Tallied w₄ run entries := before.merged merged
      (by rw [same, first.heap]; exact Nat.lt_of_lt_of_le (apart.stored run known) room)
      (by rw [same, same]; exact apart.own run known other known')
    exact after.congr (by rw [rest.heap, argsOf_congr rest.args]) rest.course

/-- A step leaves a dictionary alone that no run has for its args and that user code does not write. -/
theorem Phases.spares (phases : Phases plan w w') (reached : Reachable plan w') {d : DictRef}
    (free : ∀ other < w.records.size, w.argsOf other ≠ d)
    (code : (userCode plan w).2.heap.dict d = (userCode plan w).1.heap.dict d) :
    w'.heap.dict d = w.heap.dict d := by
  have merges {other : RunId} {h : Head} {r : Result} {payload : Entries} {rest : List Note}
      (merged : w'.course = (other, .completed h r payload) :: rest) : other < w.records.size :=
    phases.merges reached merged
  obtain ⟨prelude, played, sequel⟩ := phases
  have args : (userCode plan w).2.records.map (·.args) = w.records.map (·.args) := by
    rw [played.records, prelude.args]
  rw [← prelude.heap, ← code]
  generalize (userCode plan w).2 = w₂ at sequel args
  cases sequel with
  | aside aside => rw [aside.heap]
  | @merged w₃ w₄ _ other n r started first done rest =>
    have merged := complete_merged done
    have apart : w₃.argsOf other ≠ d :=
      argsOf_congr (first.args.trans args) other ▸ free other (merges (rest.course.trans merged.course))
    rw [rest.heap, Heap.dict_merge_other merged.heap apart.symm, first.heap]

theorem Tallied.spared (tallied : Tallied w run entries) (reached : Reachable plan w) (apart : Apart w)
    (known : run < w.records.size) (sparing : Sparing plan (w.argsOf run) w w') : Tallied w' run entries := by
  have more := sparing.size_le reached.sound.steady
  by_cases stepped : w.step plan = some w'
  · by_cases starts : w.focus.starts
    · obtain ⟨keeps, course, args⟩ := step_starts_keeps stepped starts
      refine tallied.congr ?_ course
      rw [args run known, keeps.same _ (apart.stored run known)]
    · exact tallied.phases (step_phases stepped (by simpa using starts)) (.move reached sparing.move) apart more known
        (sparing.code stepped)
  · have kept := sparing.supply stepped
    rcases sparing.move.aside with now | ⟨heap, rfl⟩ | rfl | aside
    · exact absurd now stepped
    · exact tallied.congr kept rfl
    · exact tallied.congr rfl rfl
    · exact tallied.congr (by rw [aside.heap, argsOf_congr aside.args]) aside.course

/-- Whether a dictionary is in the heap, and no run has it for its args. -/
structure Aloof (w : World) (d : DictRef) : Prop where
  stored : d.index < w.heap.dicts.size
  free : ∀ run < w.records.size, w.argsOf run ≠ d

theorem Aloof.keeping {d : DictRef} (aloof : Aloof w d) (steady : w.Steady) (keeping : Keeping plan w w') :
    Aloof w' d := by
  have more := keeping.size_le steady
  refine ⟨Nat.lt_of_lt_of_le aloof.stored more, fun run known => ?_⟩
  rcases keeping.move.args with args | ⟨u, entries, same, begun⟩
  · rw [argsOf_congr args]
    exact aloof.free run (records_size_congr args ▸ known)
  · obtain @⟨r, heap, args, records, -, -⟩ := begun
    have unchanged : u.heap = w.heap ∧ u.records = w.records := by
      rcases same with rfl | rfl <;> exact ⟨rfl, rfl⟩
    rw [argsOf_push records, unchanged.2]
    rw [records, unchanged.2, Array.size_push] at known
    split
    · -- the args of a new run are a dictionary that was not there before
      rintro rfl
      have stored := aloof.stored
      rw [args, unchanged.1] at stored
      exact absurd stored (Nat.lt_irrefl _)
    · rename_i earlier
      rw [@argsOf_congr w u (by rw [unchanged.2])]
      exact aloof.free run (Nat.lt_of_le_of_ne (Nat.le_of_lt_succ known) earlier)

/-- A move that spares a dictionary leaves it as it is if no run has it for its args. -/
theorem Aloof.spared {d : DictRef} (aloof : Aloof w d) (reached : Reachable plan w)
    (sparing : Sparing plan d w w') : w'.heap.dict d = w.heap.dict d := by
  by_cases stepped : w.step plan = some w'
  · by_cases starts : w.focus.starts
    · exact (step_starts_keeps stepped starts).1.same d aloof.stored
    · exact (step_phases stepped (by simpa using starts)).spares (.move reached sparing.move) aloof.free
        (sparing.code stepped)
  · exact sparing.supply stepped

theorem tally_unknown (none : ∀ h r payload, (run, .completed h r payload) ∉ notes) :
    tally run entries notes = entries := by
  induction notes with
  | nil => rfl
  | cons x rest ih =>
    have earlier := ih fun h r payload there => none h r payload (List.mem_cons_of_mem _ there)
    obtain ⟨other, x⟩ := x
    by_cases same : other = run
    · subst same
      rw [tally_cons]
      cases x with
      | completed h r payload => exact absurd List.mem_cons_self (none h r payload)
      | _ => exact earlier
    · rw [tally_other same, earlier]

/-- A run starts with its entries as args, before it calls or completes anything. -/
theorem Tallied.start {t : FutureId} {stack : List Frame} {routine : Routine} (reached : Reachable plan w)
    (starting : w.focus = .enter t routine stack) (kind : routine = .runner given ∨ routine = .execute given)
    (made : w.heap.entriesOf given = .ok entries) (started : w.step plan = some w') :
    Tallied w' w.records.size entries ∧ w'.records.size = w.records.size + 1 := by
  obtain ⟨u, same, begun⟩ : ∃ u, (u = w ∨ u = w.resetNodes) ∧ Begun u entries w' := by
    unfold World.step at started
    rw [starting] at started
    obtain rfl := Option.some.inj started
    rcases kind with rfl | rfl
    · exact ⟨_, .inr rfl, enterRunner_begun (w := w.resetNodes) made⟩
    · exact ⟨_, .inl rfl, enterRunner_begun made⟩
  obtain @⟨r, heap, args, records, -, course⟩ := begun
  have unchanged : u.heap = w.heap ∧ u.course = w.course ∧ u.records = w.records := by
    rcases same with rfl | rfl <;> exact ⟨rfl, rfl, rfl⟩
  have unknown (stage : Stage) (x : Happening) (h : Head) (there : (w.records.size, x) ∈ w'.course)
      (here : stage.reached? x = some h) : False := by
    rw [course, unchanged.2.1] at there
    exact absurd (reached.recorded stage (List.mem_of_mem_filter there) here) (Nat.lt_irrefl _)
  refine ⟨⟨?_, fun later earlier h args split => ?_⟩, by rw [records, unchanged.2.2, Array.size_push]⟩
  · rw [argsOf_push records, unchanged.2.2, if_pos rfl, args, heap, Heap.dict_newDict_self,
      tally_unknown fun h r payload there => unknown .complete _ h there rfl]
  · refine (unknown .call (.called h args) h ?_ rfl).elim
    rw [split]
    exact List.mem_append_right _ List.mem_cons_self

theorem Tallied.path {d : DictRef} (sparing : Relation.ReflTransGen (Sparing plan d) w w') (stocked : Stocked plan w)
    (known : run < w.records.size) (own : w.argsOf run = d) (tallied : Tallied w run entries) :
    Stocked plan w' ∧ run < w'.records.size ∧ w'.argsOf run = d ∧ Tallied w' run entries := by
  induction sparing with
  | refl => exact ⟨stocked, known, own, tallied⟩
  | @tail w₁ w₂ _ last ih =>
    obtain ⟨stocked, known, rfl, tallied⟩ := ih
    have reached := stocked.reachable
    refine ⟨.move stocked last.toKeeping, ?_, last.move.argsOf known, tallied.spared reached stocked.apart known last⟩
    exact Nat.lt_of_lt_of_le known (Account.records_le (last.move.grown reached.sound.steady))

theorem Aloof.path {d : DictRef} (aloof : Aloof w d) (stocked : Stocked plan w)
    (sparing : Relation.ReflTransGen (Sparing plan d) w w') : w'.heap.dict d = w.heap.dict d := by
  have kept : Stocked plan w' ∧ Aloof w' d ∧ w'.heap.dict d = w.heap.dict d := by
    induction sparing with
    | refl => exact ⟨stocked, aloof, rfl⟩
    | tail _ last ih =>
      obtain ⟨stocked, aloof, same⟩ := ih
      have reached := stocked.reachable
      exact ⟨.move stocked last.toKeeping, aloof.keeping reached.sound.steady last.toKeeping,
        (aloof.spared reached last).trans same⟩
  exact kept.2.2

/-! ### A run of nodes that write nothing -/

def mildSteps (plan : Plan) : Nat → World → Option World
  | 0, w => some w
  | k + 1, w => if w.isMild plan then (w.step plan).bind (mildSteps plan k) else none

theorem sparing_of_mild {d : DictRef} (stored : d.index < w.heap.dicts.size) (mild : w.isMild plan)
    (stepped : w.step plan = some w') : Sparing plan d w w' := by
  refine ⟨⟨.stepped stepped, fun other => absurd stepped other⟩, fun _ => ?_, fun other => absurd stepped other⟩
  by_cases starts : w.focus.starts
  · have none : userCode plan w = (w, w) := by
      unfold userCode
      cases here : w.focus with
      | enter t r stack => cases r <;> simp_all [Focus.starts, Routine.starts]
      | leave _ _ _ => simp_all [Focus.starts]
      | idle => simp_all [Focus.starts]
    rw [none]
  · have prelude := (step_phases stepped (by simpa using starts)).prelude
    exact (userCode_keeps mild).same d (by rwa [prelude.heap])

theorem sparing_of_mildSteps {k : Nat} {d : DictRef} (steps : mildSteps plan k w = some w') (reached : Reachable plan w)
    (stored : d.index < w.heap.dicts.size) : Reachable plan w' ∧ Relation.ReflTransGen (Sparing plan d) w w' := by
  induction k generalizing w with
  | zero => exact Option.some.inj steps ▸ ⟨reached, .refl⟩
  | succ k ih =>
    unfold mildSteps at steps
    split at steps
    · rename_i mild
      obtain ⟨w₁, stepped, rest⟩ := Option.bind_eq_some_iff.mp steps
      have sparing : Sparing plan d w w₁ := sparing_of_mild stored mild stepped
      obtain ⟨reached', path⟩ := ih rest (.move reached sparing.move)
        (Nat.lt_of_lt_of_le stored (sparing.size_le reached.sound.steady))
      exact ⟨reached', .head sparing path⟩
    · cases steps

theorem stocked_work (fuel : Nat) (callers : List Caller) (stocked : Stocked plan w) :
    Stocked plan (work plan fuel callers w).2 := by
  induction fuel generalizing callers w with
  | zero => exact stocked
  | succ fuel ih =>
    unfold World.work
    split
    · exact stocked
    · rename_i w₁ stepped
      exact ih _ (.move stocked ⟨.stepped stepped, fun other => absurd stepped other⟩)

/-- Two nodes, of which the first reports a payload with one key. -/
def reportingItems : List Item := [
  .leaf (.object 0 0) (.function {
    label := "a"
    signature := [⟨"args", .standard, false⟩, ⟨"store", .standard, false⟩, ⟨"completion", .standard, false⟩]
    steps := [.call [.dict [(.text "k", .int 1)]]] } {}),
  .leaf (.object 1 0) (.function {
    label := "b"
    signature := [⟨"args", .standard, false⟩, ⟨"store", .standard, false⟩]
    steps := [] } {})]

def reporting : Plan where
  tree := Graph.compileItems reportingItems

def supplied (plan : Plan) (entries : Entries) (n : Nat) : World :=
  (work plan n [] ({ unused plan with heap := { dicts := #[entries] } }.newTask (.runner (.dict ⟨0⟩))).2).2

theorem stocked_supplied (plan : Plan) (entries : Entries) (n : Nat) : Stocked plan (supplied plan entries n) := by
  have fresh : Fresh { unused plan with heap := { dicts := #[entries] } } := ⟨rfl, rfl, rfl, rfl, rfl, rfl⟩
  exact stocked_work n [] (.move (.fresh fresh) ⟨.called (.runner (.dict ⟨0⟩)) rfl, fun _ => Nat.le_refl _⟩)

/-! ### Runs and their args -/

/-- The args of a run are what the payloads of its completed nodes have made of the entries it was given,
in the order of their completion. Each action is called with what they have made until then, and its node
shows that as long as the run has the runner for itself. No key goes, and the last payload that has a key
gives its value. Any other mapping, such as the one the run was started from, stays as it is. -/
theorem args_are_merged_payloads {graph : Item} (compiled : Graph.compile graph = .ok plan.tree) {u v : World}
    {t : FutureId} {stack : List Frame} {routine : Routine} (stocked : Stocked plan u)
    (starting : u.focus = .enter t routine stack) (kind : routine = .runner given ∨ routine = .execute given)
    (made : u.heap.entriesOf given = .ok entries) (started : u.step plan = some v)
    (sparing : Relation.ReflTransGen (Sparing plan (v.argsOf u.records.size)) v w) :
    let run := u.records.size
    let args := w.heap.dict (w.argsOf run)
    args = tally run entries w.notes ∧
    (∀ later earlier h shared, w.notes = later ++ (run, .called h shared) :: earlier →
      shared = tally run entries earlier) ∧
    (plan.settings.snapshotArgs → routine = .runner given → u.nodes.size = plan.tree.nodeCount →
      (∀ other < run, u.isSettled other) → Relation.ReflTransGen (Calm plan) v w →
      ∀ n ∈ plan.tree.nodes, ∀ shared, (run, .called n.head shared) ∈ w.notes → (w.nodeState n).args = shared) ∧
    (∀ later earlier, w.notes = later ++ earlier → (tally run entries earlier).keys <+: args.keys) ∧
    (∀ k, args.get? k = (Entries.get? (payloads run w.notes).flatten.reverse k).or (entries.get? k)) ∧
    (∀ d, Aloof u d → Relation.ReflTransGen (Sparing plan d) v w → w.heap.dict d = u.heap.dict d) := by
  have reached := stocked.reachable
  have keeping : Keeping plan u v := ⟨.stepped started, fun other => absurd started other⟩
  obtain ⟨begun, new⟩ := Tallied.start reached starting kind made started
  have stocked' : Stocked plan v := .move stocked keeping
  obtain ⟨-, -, -, tallied⟩ := begun.path sparing stocked' (by rw [new]; exact Nat.lt_succ_self _) rfl
  have args : w.heap.dict (w.argsOf u.records.size) = tally u.records.size entries w.notes :=
    tallied.args.trans tally_counts
  refine ⟨args, fun later earlier h shared split => ?_, fun snapshot same sized free calm n known shared called => ?_,
    fun later earlier split => ?_, fun k => ?_, fun d aloof spared => ?_⟩
  · refine (tallied.calls (later.filter fun x => x.2.counts) (earlier.filter fun x => x.2.counts) h shared ?_).trans
      tally_counts
    rw [course, split, List.filter_append, List.filter_cons_of_pos rfl]
  · have compiled' := Tree.compiled_of_compile compiled
    have alone := Alone.start reached sized (same ▸ starting) free started new
    obtain ⟨-, alone⟩ := Alone.calms calm stocked'.reachable compiled' alone
    have bound := Tree.slot_lt_of_compile compiled known
    rw [← alone.size] at bound
    have here := Array.getElem?_eq_getElem bound
    have shown := (alone.shows n.slot _ here).called snapshot n.head shared rfl (List.mem_filter.mpr ⟨called, rfl⟩)
    rw [nodeState, here]
    exact shown
  · rw [args, split]
    exact keys_tally later
  · rw [args, get?_tally]
  · have starts : u.focus.starts := by
      rw [starting]
      rcases kind with rfl | rfl <;> rfl
    rw [(aloof.keeping reached.sound.steady keeping).path stocked' spared,
      (step_starts_keeps started starts).1.same d aloof.stored]

/-- A run from one key, whose first node reports another one, ends with both in its args, and the mapping it
was started from has the first one only. -/
theorem reported_key_joins_args : ∃ w ms, Reachable reporting w ∧ w.status 0 = .resolved ms ∧
    w.heap.dict (w.argsOf 0) = tally 0 [(.ofText "x", .int 0)] w.notes ∧
    ((w.heap.dict (w.argsOf 0)).get? (.ofText "x")).isSome ∧
    ((w.heap.dict (w.argsOf 0)).get? (.ofText "k")).isSome ∧ w.heap.dict ⟨0⟩ = [(.ofText "x", .int 0)] := by
  let entries : Entries := [(.ofText "x", .int 0)]
  let u := supplied reporting entries 2
  let v := supplied reporting entries 3
  have stocked : Stocked reporting u := stocked_supplied reporting entries 2
  have starting : u.focus = .enter 0 (.runner (.dict ⟨0⟩)) [] := rfl
  have started : u.step reporting = some v := rfl
  have result : (mildSteps reporting 21 v).any fun w => isResolved w 0 &&
      ((w.heap.dict (w.argsOf 0)).get? (.ofText "x")).isSome &&
      ((w.heap.dict (w.argsOf 0)).get? (.ofText "k")).isSome := by decide +kernel
  obtain ⟨w, steps, all⟩ := (Option.any_eq_true _ _).mp result
  simp only [Bool.and_eq_true] at all
  obtain ⟨⟨settled, old⟩, new⟩ := all
  obtain ⟨ms, resolved⟩ := exists_of_isResolved settled
  have reached : Reachable reporting v := (stocked_supplied reporting entries 3).reachable
  obtain ⟨reached', own⟩ := sparing_of_mildSteps (d := v.argsOf 0) steps reached (by decide +kernel)
  obtain ⟨-, other⟩ := sparing_of_mildSteps (d := ⟨0⟩) steps reached (by decide +kernel)
  have compiled : Graph.compile (.list reportingItems) = .ok reporting.tree := rfl
  have tallied := args_are_merged_payloads compiled stocked starting (.inl rfl)
    (rfl : u.heap.entriesOf (.dict ⟨0⟩) = .ok entries) started own
  obtain ⟨args, -, -, -, -, kept⟩ := tallied
  exact ⟨w, ms, reached', resolved, args, old, new, kept ⟨0⟩ ⟨Nat.one_pos, fun run known => nomatch known⟩ other⟩

end World

end Conductor
