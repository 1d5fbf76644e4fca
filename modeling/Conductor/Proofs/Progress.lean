import Conductor.Proofs.Decisions

/-!
# Progress

A run that is still running when nothing is left to do waits for user code, and for nothing else: no member
that has reported is left behind, and no task of the executor waits for another one forever.
-/

namespace Conductor.World

variable {plan : Plan} {w : World} {run : RunId}

/-- A run that is still running when nothing is left to do, and in which nothing has failed but in an
ordinary way, has taken what its members have reported: a member whose descriptor has been settled has
completed with that. And user code owes it something: what the call of a node in sequence has returned, the
report of a member whose chain waits for that, or the end of the body of a member that has completed. -/
theorem running_run_waits {graph : Item} (compiled : Graph.compile graph = .ok plan.tree)
    (runs : Runs plan run w) (done : w.step plan = none) (running : w.isSettled run = false)
    (ordinary : ∀ h e, (run, .failed h e) ∈ w.notes → e.fault.isOrdinary) :
    (∀ n c f s, Dispatched plan run w n c → w.first? c = some f → w.settlement? f = some s →
      ∃ v r payload, s = .value v ∧ v.report = .result r ∧ (run, .completed n.head r payload) ∈ w.notes) ∧
      ∃ n, w.Owes run n := by
  have compiled' := Tree.compiled_of_compile compiled
  have none (h : Head) (e : Raised) (failed : (run, .failed h e) ∈ w.notes) : False := by
    rcases runs.decided compiled' (idle_of_step done).1 failed (ordinary h e failed) with
      ⟨_, _, ms, -, rejected⟩ | ⟨_, ms, -, rejected⟩ <;>
    · rw [isSettled, rejected] at running
      cases running
  refine ⟨fun n c f s dispatched report settled => ?_, runs.owed compiled' done running ?_⟩
  · obtain ⟨call, chain, rfl, rfl, attended⟩ | ⟨e, failed⟩ := dispatched.attended compiled'
    · obtain completed | ⟨e, failed, -⟩ | ⟨-, past⟩ := attended.ended runs compiled' done report settled
      · exact completed
      · exact (none _ e failed).elim
      · cases running.symm.trans past
    · exact (none _ e failed).elim
  · rintro ⟨h, e, failed, -⟩
    exact none h e failed

/-- A group of two members, of which only the second one reports. -/
def awaitingItems : List Item :=
  let member (token : Nat) (label : String) (steps : List Step) : Item := .leaf (.object token 0) (.function {
    label
    signature := [⟨"args", .standard, false⟩, ⟨"store", .standard, false⟩, ⟨"completion", .standard, false⟩]
    steps } {})
  [.list [member 0 "silent" [], member 1 "swift" [.call []]]]

def awaiting : Plan where
  tree := Graph.compileItems awaitingItems

def dispatches (w : World) (run : RunId) (slot : Nat) : Bool :=
  match w.focus with
  | .enter _ (.dispatch other _ _ (.node head _ :: _) _) _ => other == run && head.slot == slot
  | _ => false

theorem exists_of_dispatches {slot : Nat} (comes : w.dispatches run slot) :
    ∃ (n : Node) (t : FutureId) (place : Path) (position : Nat) (rest : List Entry) (chains : List FutureId)
      (stack : List Frame),
      w.focus = .enter t (.dispatch run place position (n.entry :: rest) chains) stack ∧ n.slot = slot := by
  unfold dispatches at comes
  split at comes
  · rename_i t other place position head outputs rest chains stack here
    obtain ⟨same, own⟩ := Bool.and_eq_true_iff.mp comes
    obtain rfl : other = run := by simpa using same
    have slot' : head.slot = slot := by simpa using own
    exact ⟨⟨head, outputs⟩, t, place, position, rest, chains, stack, here, slot'⟩
  · cases comes

/-- The second member of the group has completed, and the run waits for the first one. -/
theorem silent_member_is_awaited : ∃ (w : World) (n : Node) (r : Result) (payload : Entries) (m : Node),
    Runs awaiting 0 w ∧ w.step awaiting = none ∧ n.slot = 1 ∧ (0, .completed n.head r payload) ∈ w.notes ∧
      w.Owes 0 m := by
  let u := firstRun awaiting 9
  have comes : u.dispatches 0 1 := by decide +kernel
  have result : (u.step awaiting).any fun w₁ =>
      let w := (work awaiting 30 [] w₁).2
      (w.step awaiting).isNone && !w.isSettled 0 && (w.notes.all fun x => !(x.2 matches .failed _ _)) &&
        ((w.first? u.completions.size).bind w.settlement?).isSome := by decide +kernel
  obtain ⟨w₁, stepped, all⟩ := (Option.any_eq_true _ _).mp result
  simp only [Bool.and_eq_true, Bool.not_eq_true', Option.isNone_iff_eq_none] at all
  obtain ⟨⟨⟨done, running⟩, clean⟩, reported⟩ := all
  obtain ⟨s, settled⟩ := Option.isSome_iff_exists.mp reported
  obtain ⟨f, report, settled⟩ := Option.bind_eq_some_iff.mp settled
  have runs : Runs awaiting 0 u := runs_firstRun awaiting 6
  obtain ⟨n, t, place, position, rest, chains, stack, here, slot⟩ := exists_of_dispatches comes
  have dispatched := (Dispatched.called runs here stepped).work 30
  have compiled : Graph.compile (.list awaitingItems) = .ok awaiting.tree := rfl
  obtain ⟨taken, m, owes⟩ := running_run_waits compiled dispatched.runs done running
    fun h e failed => by simpa using List.all_eq_true.mp clean _ failed
  obtain ⟨v, r, payload, -, -, completed⟩ := taken n _ f s dispatched report settled
  exact ⟨_, n, r, payload, m, dispatched.runs, done, slot, completed, owes⟩

end Conductor.World
