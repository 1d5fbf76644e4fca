import Conductor.Proofs.Arrangement
import Conductor.Proofs.Matching
import Conductor.Proofs.Rejections

/-!
# Runs that agree

Two runs agree when a node that completes in both does so with the same output and the same payload. Left to
itself until nothing is left to do, with actions that do their part and do not fail, a run resolves. Two such
runs that agree execute the same nodes if they are done with the same entries.
-/

namespace Conductor

namespace Entries

variable {R : Value → Value → Prop} {target target' source source' : Entries} {k : Key}

/-- Whether entries are the same but for how their values are told to be the same. -/
def Rel (R : Value → Value → Prop) : Entries → Entries → Prop :=
  List.Forall₂ fun e e' => e.1.same e'.1 ∧ R e.2 e'.2

theorem Rel.flip (rel : Rel R source source') : Rel (flip R) source' source := by
  refine List.Forall₂.flip (List.Forall₂.imp (fun e e' both => ⟨?_, both.2⟩) rel)
  exact Key.same_iff.mpr (Key.same_iff.mp both.1).symm

theorem Rel.get? (rel : Rel R source source') : Option.Rel R (source.get? k) (source'.get? k) := by
  unfold Rel at rel
  induction rel with
  | nil => exact .none
  | @cons e e' rest rest' both _ ih =>
    have agree : e.1.same k = e'.1.same k := by
      rw [Bool.eq_iff_iff, Key.same_iff, Key.same_iff, Key.same_iff.mp both.1]
    by_cases same : e'.1.same k
    · simpa [Entries.get?, agree, same] using Option.Rel.some both.2
    · simpa [Entries.get?, agree, same] using ih

theorem Rel.reverse (rel : Rel R source source') : Rel R source.reverse source'.reverse :=
  List.rel_reverse rel

theorem get?_append : get? (source ++ source') k = (source.get? k).or (source'.get? k) := by
  simp [get?, List.find?_append, Option.map_or]

end Entries

namespace World

variable {plan plan' : Plan} {w w' : World} {run run' : RunId} {R : Value → Value → Prop}
  {entries entries' : Entries} {slot : Nat}

/-! ### Runs that are left to themselves -/

structure Launches (plan : Plan) (run : RunId) (entries : Entries) (u v : World) : Prop where
  stocked : Stocked plan u
  starting : ∃ t routine stack given, u.focus = .enter t routine stack ∧
    (routine = .runner given ∨ routine = .execute given) ∧ u.heap.entriesOf given = .ok entries
  started : u.step plan = some v
  latest : run = u.records.size

theorem Launches.begins {u v : World} (launches : Launches plan run entries u v) :
    Reachable plan u ∧ u.record? run = none ∧ (v.record? run).isSome := by
  obtain ⟨stocked, ⟨t, routine, stack, given, starting, kind, made⟩, started, rfl⟩ := launches
  obtain ⟨-, new⟩ := Tallied.start stocked.reachable starting kind made started
  refine ⟨stocked.reachable, by simp [record?], ?_⟩
  rw [record?, Array.getElem?_eq_getElem (by omega)]
  rfl

/-- Whether a run was started from entries and has lived on until nothing was left to do. Nobody but the
executor has written its args, none of its nodes has failed, and user code owes it nothing. -/
structure Execution (plan : Plan) (run : RunId) (entries : Entries) (w : World) : Prop where
  lived : ∃ u v, Launches plan run entries u v ∧
    Relation.ReflTransGen (fun w w' => Sparing plan (v.argsOf run) w w' ∧ Undisturbed plan run w w') v w
  done : w.step plan = none
  unfailed : ∀ h e, (run, .failed h e) ∉ w.notes
  paid : ∀ n, ¬ w.Owes run n

/-- Whether the node with a slot has executed in a run. -/
def Executes (w : World) (run : RunId) (slot : Nat) : Prop :=
  ∃ h r payload, h.slot = slot ∧ (run, .completed h r payload) ∈ w.notes

/-- Whether nodes complete in two runs with the same outputs and payloads. -/
def Agrees (R : Value → Value → Prop) (w : World) (run : RunId) (w' : World) (run' : RunId) : Prop :=
  ∀ h r payload h' r' payload', h.slot = h'.slot → (run, .completed h r payload) ∈ w.notes →
    (run', .completed h' r' payload') ∈ w'.notes → r.path = r'.path ∧ Entries.Rel R payload payload'

theorem Agrees.concur (agrees : w.Agrees R run w' run') : w.Concur run w' run' :=
  fun h r payload h' r' payload' slot completed completed' =>
    (agrees h r payload h' r' payload' slot completed completed').1

theorem Agrees.flip (agrees : w.Agrees R run w' run') : w'.Agrees (flip R) run' w run := by
  intro h r payload h' r' payload' slot completed completed'
  obtain ⟨path, rel⟩ := agrees h' r' payload' h r payload slot.symm completed' completed
  exact ⟨path.symm, rel.flip⟩

theorem Concur.symm (concur : w.Concur run w' run') : w'.Concur run' w run :=
  fun h r payload h' r' payload' slot completed completed' =>
    (concur h' r' payload' h r payload slot.symm completed' completed).symm

namespace Execution

variable (execution : Execution plan run entries w)
include execution

theorem runs : Runs plan run w := by
  obtain ⟨u, v, launches, lived⟩ := execution.lived
  obtain ⟨before, new, known⟩ := launches.begins
  clear execution
  induction lived with
  | refl => exact .begun before (.stepped launches.started) new known
  | tail _ last ih => exact ih.move last.1.move last.2

theorem reachable : Reachable plan w := execution.runs.reachable

/-- The args of a run are what its payloads have made of the entries that it was started from. -/
theorem args : w.heap.dict (w.argsOf run) = tally run entries w.notes := by
  obtain ⟨u, v, launches, lived⟩ := execution.lived
  obtain ⟨stocked, ⟨t, routine, stack, given, starting, kind, made⟩, started, rfl⟩ := launches
  obtain ⟨begun, new⟩ := Tallied.start stocked.reachable starting kind made started
  have stocked' : Stocked plan v := .move stocked ⟨.stepped started, fun other => absurd started other⟩
  have sparing : Relation.ReflTransGen (Sparing plan (v.argsOf u.records.size)) v w :=
    lived.lift id fun _ _ last => last.1
  obtain ⟨-, -, -, tallied⟩ := begun.path sparing stocked' (by rw [new]; exact Nat.lt_succ_self _) rfl
  exact tallied.args.trans tally_counts

variable (compiled : plan.tree.Compiled)
include compiled

theorem resolved : ∃ ms, w.status run = .resolved ms :=
  execution.runs.resolves compiled execution.done execution.unfailed execution.paid

theorem roots : ∀ e ∈ plan.tree.branches, w.Done run e := by
  obtain ⟨ms, resolved⟩ := execution.resolved compiled
  cases execution.reachable.done compiled resolved with
  | nested all => exact all

/-- Whatever executes in a run executes in another one that concurs with it, if that is done with entries that
match its root entries. -/
theorem executes (concur : w.Concur run w' run') (roots : ∀ e ∈ plan.tree.branches, w'.Matched run' e)
    (executes : w.Executes run slot) : w'.Executes run' slot := by
  obtain ⟨h, r, payload, rfl, completed⟩ := executes
  obtain ⟨n, rfl, stood⟩ := execution.reachable.completed_stood compiled completed
  exact ((stood.comes compiled).matched concur roots).completed

end Execution

/-! ### What is shown -/

/-- Whether a run has had the runner for itself: it was started when no other run was running, and no run has
been started since. -/
def Sole (plan : Plan) (run : RunId) (w : World) : Prop :=
  ∃ u v t given stack, Reachable plan u ∧ u.nodes.size = plan.tree.nodeCount ∧
    u.focus = .enter t (.runner given) stack ∧ (∀ other < u.records.size, u.isSettled other) ∧
    u.step plan = some v ∧ v.records.size = u.records.size + 1 ∧ run = u.records.size ∧
    Relation.ReflTransGen (Calm plan) v w

theorem Sole.alone (sole : Sole plan run w) (compiled : plan.tree.Compiled) :
    Reachable plan w ∧ Alone plan w run := by
  obtain ⟨u, v, t, given, stack, reached, sized, starting, free, started, new, rfl, calm⟩ := sole
  have alone := Alone.start reached sized starting free started new
  exact Alone.calms calm (reached.move (.stepped started)) compiled alone

/-- The nodes show which of them have executed in a run that has the runner for itself. -/
theorem Sole.executed_iff {graph : Item} (sole : Sole plan run w) (compiled : Graph.compile graph = .ok plan.tree)
    {n : Node} (known : n ∈ plan.tree.nodes) : (w.nodeState n).executed ↔ w.Executes run n.slot := by
  have compiled' := Tree.compiled_of_compile compiled
  obtain ⟨reached, alone⟩ := sole.alone compiled'
  have bound := Tree.slot_lt_of_compile compiled known
  rw [← alone.size] at bound
  have here := Array.getElem?_eq_getElem bound
  constructor
  · intro executed
    rw [nodeState, here] at executed
    obtain ⟨h, r, payload, own, completed⟩ := (alone.shows _ _ here).executed executed
    exact ⟨h, r, payload, own, List.mem_of_mem_filter completed⟩
  · rintro ⟨h, r, payload, own, completed⟩
    obtain ⟨m, rfl, stood⟩ := reached.completed_stood compiled' completed
    obtain rfl := compiled'.eq_of_slot stood.mem known own
    exact (alone.shows.of_completed here completed).1

/-! ### Runs that work until nothing is left to do -/

def sameAtom : Value → Value → Bool
  | .atom a, .atom b => a == b
  | _, _ => false

def allAgree (w : World) (run : RunId) (w' : World) (run' : RunId) : Bool :=
  w.notes.all fun x => w'.notes.all fun y => match x, y with
    | (i, .completed h r payload), (j, .completed h' r' payload') =>
      i != run || j != run' || h.slot != h'.slot || sameAtom r.path r'.path && payload.length == payload'.length &&
        (payload.zip payload').all fun e => e.1.1.same e.2.1 && sameAtom e.1.2 e.2.2
    | _, _ => true

theorem eq_of_sameAtom {v v' : Value} (same : sameAtom v v') : v = v' := by
  cases v <;> cases v' <;> simp_all [sameAtom]

theorem agrees_of_allAgree (all : allAgree w run w' run') : w.Agrees (fun v v' => sameAtom v v') run w' run' := by
  intro h r payload h' r' payload' slot completed completed'
  have agree := List.all_eq_true.mp (List.all_eq_true.mp all _ completed) _ completed'
  simp only [bne_self_eq_false, Bool.false_or, slot, Bool.and_eq_true, beq_iff_eq] at agree
  obtain ⟨⟨path, length⟩, pairs⟩ := agree
  refine ⟨eq_of_sameAtom path, List.forall₂_iff_zip.mpr ⟨length, fun {e e'} member => ?_⟩⟩
  exact Bool.and_eq_true_iff.mp (List.all_eq_true.mp pairs _ member)

/-- Steps by which no run starts and no user code writes a mapping that was there before, until nothing is
left to do. -/
def soleSteps (plan : Plan) : Nat → World → Option World
  | 0, w => if (w.step plan).isNone then some w else none
  | k + 1, w =>
    match w.step plan with
    | none => some w
    | some w' =>
      if w.isMild plan && !w.focus.starts && w'.records.size == w.records.size then soleSteps plan k w' else none

theorem soleSteps_succ {k : Nat} (steps : soleSteps plan (k + 1) w = some w') :
    w.step plan = none ∧ w = w' ∨ ∃ w₁, w.step plan = some w₁ ∧ w.isMild plan ∧ w.focus.starts = false ∧
      w₁.records.size = w.records.size ∧ soleSteps plan k w₁ = some w' := by
  unfold soleSteps at steps
  split at steps
  · rename_i done
    exact .inl ⟨done, Option.some.inj steps⟩
  · rename_i w₁ stepped
    split at steps
    · rename_i clear
      simp only [Bool.and_eq_true, Bool.not_eq_true', beq_iff_eq] at clear
      obtain ⟨⟨mild, starts⟩, size⟩ := clear
      exact .inr ⟨w₁, stepped, mild, starts, size, steps⟩
    · cases steps

theorem soleSteps_zero (steps : soleSteps plan 0 w = some w') : w.step plan = none ∧ w = w' := by
  unfold soleSteps at steps
  split at steps
  · rename_i done
    exact ⟨Option.isNone_iff_eq_none.mp done, Option.some.inj steps⟩
  · cases steps

theorem paths_of_soleSteps {d : DictRef} {k : Nat} (steps : soleSteps plan k w = some w') (reached : Reachable plan w)
    (stored : d.index < w.heap.dicts.size) : w'.step plan = none ∧
      Relation.ReflTransGen (fun w w' => Sparing plan d w w' ∧ Undisturbed plan run w w') w w' ∧
      Relation.ReflTransGen (Calm plan) w w' := by
  induction k generalizing w with
  | zero =>
    obtain ⟨done, rfl⟩ := soleSteps_zero steps
    exact ⟨done, .refl, .refl⟩
  | succ k ih =>
    rcases soleSteps_succ steps with ⟨done, rfl⟩ | ⟨w₁, stepped, mild, starts, size, rest⟩
    · exact ⟨done, .refl, .refl⟩
    · have sparing : Sparing plan d w w₁ := sparing_of_mild stored mild stepped
      obtain ⟨done, lived, calm⟩ := ih rest (reached.move sparing.move)
        (Nat.lt_of_lt_of_le stored (sparing.size_le reached.sound.steady))
      exact ⟨done, .head ⟨sparing, step_loop reached.sound stepped, .inl stepped⟩ lived,
        .head ⟨.stepped stepped, size, .inr ⟨stepped, starts⟩⟩ calm⟩

def isClear (w : World) : Bool :=
  (w.notes.all fun x => match x.2 with
    | .failed _ _ => false
    | .began _ (some b) => (w.settlement? b).isSome
    | _ => true) &&
  w.futures.all fun f => match f.purpose with
    | .task (.suspended _) _ _ => false
    | _ => true

theorem unfailed_of_isClear (clear : w.isClear) (h : Head) (e : Raised) : (run, .failed h e) ∉ w.notes := by
  intro failed
  have none := List.all_eq_true.mp (Bool.and_eq_true_iff.mp clear).1 _ failed
  cases none

theorem paid_of_isClear (clear : w.isClear) (n : Node) : ¬ w.Owes run n := by
  obtain ⟨noted, tasks⟩ := Bool.and_eq_true_iff.mp clear
  have suspended {t : FutureId} {stack : List Frame} {waiting : Option FutureId}
      (stood : w.Stands t (.suspended stack) waiting) : False := by
    obtain ⟨asked, own⟩ := stood
    obtain ⟨f, found, purpose⟩ := Option.map_eq_some_iff.mp own
    obtain ⟨bound, rfl⟩ := Array.getElem?_eq_some_iff.mp found
    have none := Array.all_eq_true.mp tasks t bound
    rw [purpose] at none
    cases none
  intro owes
  cases owes with
  | inside _ stood => exact suspended stood
  | outside _ stood => exact suspended stood
  | unreported _ stood => exact suspended stood
  | @lingering _ _ b _ began pending =>
    have ended := List.all_eq_true.mp noted _ began
    simp [pending] at ended

theorem launches_supplied (plan : Plan) (entries : Entries) :
    Launches plan 0 entries (supplied plan entries 2) (supplied plan entries 3) := by
  have starting : (supplied plan entries 2).focus = .enter 0 (.runner (.dict ⟨0⟩)) [] := rfl
  have made : (supplied plan entries 2).heap.entriesOf (.dict ⟨0⟩) = .ok entries := by cases entries <;> rfl
  exact ⟨stocked_supplied plan entries 2, ⟨_, _, _, _, starting, .inl rfl, made⟩, rfl, rfl⟩

theorem stored_supplied (plan : Plan) (entries : Entries) :
    ((supplied plan entries 3).argsOf 0).index < (supplied plan entries 3).heap.dicts.size := by
  have copied : (supplied plan entries 3).argsOf 0 = ⟨1⟩ := by cases entries <;> rfl
  have size : (supplied plan entries 3).heap.dicts.size = 2 := by cases entries <;> rfl
  rw [copied, size]
  exact Nat.one_lt_two

/-- A run from a mapping that the machine alone has worked on is an execution, which has the runner for
itself. -/
theorem execution_of_soleSteps {k : Nat} (steps : soleSteps plan k (supplied plan entries 3) = some w)
    (clear : w.isClear) : Execution plan 0 entries w ∧ Sole plan 0 w := by
  let u := supplied plan entries 2
  let v := supplied plan entries 3
  have launches : Launches plan 0 entries u v := launches_supplied plan entries
  have starting : u.focus = .enter 0 (.runner (.dict ⟨0⟩)) [] := rfl
  have new : v.records.size = 1 := by cases entries <;> rfl
  have unused : u.nodes = Array.replicate plan.tree.nodeCount {} := rfl
  have sized : u.nodes.size = plan.tree.nodeCount := by rw [unused, Array.size_replicate]
  have free (other : RunId) (earlier : other < u.records.size) : u.isSettled other :=
    absurd earlier (Nat.not_lt_zero other)
  have reached := launches.stocked.reachable
  obtain ⟨done, lived, calm⟩ := paths_of_soleSteps (d := v.argsOf 0) steps
    (reached.move (.stepped launches.started)) (stored_supplied plan entries)
  refine ⟨⟨⟨u, v, launches, lived⟩, done, unfailed_of_isClear clear, paid_of_isClear clear⟩, ?_⟩
  exact ⟨u, v, 0, _, [], reached, sized, starting, free, launches.started, new, rfl, calm⟩

end World

end Conductor
