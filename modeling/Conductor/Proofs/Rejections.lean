import Conductor.Proofs.Hearings

/-!
# What rejects a run

A run that has failed does not resolve, but not every failure rejects it. An ordinary one does, and the
cancellation of the body of a member that has not reported counts as one. Any other failure rejects a run
only if it is that of the body of a member that has completed. Everywhere else it ends the tasks that hand
it on, and leaves the run as it was.
-/

namespace Conductor.World

variable {plan : Plan} {v v' w w' : World} {run : RunId} {h : Head} {e : Raised} {ms : Nat} {call : Call}
  {c : FutureId}

/-! ### The ends of bodies -/

theorem step_of_job {j : Job} {w₁ : World} (idle : w.focus = .idle) (next : w.nextJob? = some (j, w₁)) :
    w.step plan = some (w₁.runJob plan j) := by
  unfold step
  rw [idle]
  dsimp only
  rw [next]

theorem Belated.stepped (late : v.Belated plan run e v') : v.step plan = some v' := by
  cases late with
  | mk idle next _ _ => exact step_of_job idle next

theorem Belated.awaits (late : v.Belated plan run e v') : ∃ b, v.Awaits run b := by
  cases late with
  | mk _ next _ _ => exact ⟨_, _, _, _, mem_jobs_of_next next⟩

theorem Reachable.awaits_known {b : FutureId} (reached : Reachable plan w) (waits : w.Awaits run b) :
    (w.record? run).isSome := by
  obtain ⟨h, began⟩ := reached.awaits waits
  obtain ⟨args, called⟩ := reached.begun began
  exact reached.known called

/-- The failure of the body of a member that has completed rejects its run, whatever its nature. -/
theorem Belated.rejects (late : v.Belated plan run e v') (reached : Reachable plan v)
    (compiled : plan.tree.Compiled) : ∃ ms e, v'.status run = .rejected ms e := by
  have stepped := late.stepped
  obtain ⟨b, waits⟩ := late.awaits
  have known := reached.awaits_known waits
  by_cases past : v.isSettled run
  · -- the run waits for the end of a body, so it has not resolved
    exact Move.rejected reached.sound.steady (.stepped stepped) past fun ms resolved =>
      reached.unawaited compiled resolved waits
  cases late with
  | @mk node d explicit b w₁ idle next failed completed =>
    have records := (nextJob_sameRuns next).records
    have tried := reject_rejecting plan run e (w₁.note run (.failed node.head e))
    obtain ⟨ms, rejected⟩ := tried.rejects ((record?_congr records run).symm ▸ known)
      ((isSettled_congr records run).trans (by simpa using past))
    have late := (bodyEnded_late plan run node explicit failed completed).sameRuns
    exact ⟨ms, e, (status_congr late.records run).trans rejected⟩

theorem Belated.failed (late : v.Belated plan run e v') : ∃ h, (run, .failed h e) ∈ v'.notes := by
  cases late with
  | @mk node d explicit b w₁ idle next failed completed =>
    have tried := reject_rejecting plan run e (w₁.note run (.failed node.head e))
    obtain ⟨notes, effect, -⟩ := tried.effect
    have late := (bodyEnded_late plan run node explicit failed completed).sameRuns
    exact ⟨node.head, notes_congr late.journal ▸ (Grown.effect effect).subset_notes List.mem_cons_self⟩

/-- What a machine goes on to that tells a run of the cancellation of the body of a member that has not
reported, whose descriptor is as it was made. -/
inductive Forsaken (plan : Plan) (w : World) (run : RunId) : World → Prop where
  | mk {node : Node} {c : CompletionId} {explicit : Bool} {b f : FutureId} {w₁ : World} {cause : Option Raised}
      {x : Completion} (idle : w.focus = .idle) (next : w.nextJob? = some (.bodyEnded run node c explicit b, w₁))
      (cancelled : w₁.settlement? b = some (.cancelled cause)) (report : w₁.first? c = some f)
      (pending : w₁.isPending f) (known : w₁.completion? c = some x) (intact : x.descriptor.isRebound = false) :
      Forsaken plan w run (w₁.runJob plan (.bodyEnded run node c explicit b))

/-- The chain of a member whose body was cancelled before the member has reported is told of an ordinary
failure instead. -/
theorem Forsaken.failed (forsaken : v.Forsaken plan run v') (runs : Runs plan run v) (compiled : plan.tree.Compiled) :
    Runs plan run v' ∧ ∃ call t f e, v'.Attended run call t ∧ v'.first? call.completion = some f ∧
      v'.settlement? f = some (.failed e) ∧ e.fault.isOrdinary := by
  cases forsaken with
  | @mk node d explicit b f w₁ cause x idle next cancelled report pending known intact =>
    have sound := runs.reachable.sound
    have stepped : World.step plan _ = some (w₁.runJob plan _) := step_of_job idle next
    have member := mem_jobs_of_next next
    have began := runs.reachable.notices.told run node d explicit b member
    refine ⟨runs.step stepped, ?_⟩
    cases runs.accounted compiled began with
    | sequential _ _ unnoticed _ => exact absurd ⟨node, d, explicit, member⟩ unnoticed
    | @member call t _ own _ _ attended _ notice =>
      obtain rfl := notice node d explicit member
      have attended' := attended.move runs.reachable compiled (runs.calm compiled) (.stepped stepped)
      obtain ⟨notes, ends⟩ := bodyEnded_ends (w := w₁) plan run node call.completion explicit b fun e failed =>
        sound.proper.settlements b _ ((settlement?_congr (nextJob_futures next)).symm.trans failed)
      have report' := (Grown.effect ends.effect).firsts _ _ report
      cases ends with
      | quiet _ _ fails =>
        obtain ⟨y, known', rebound⟩ | ⟨e, fault, failed⟩ := fails cause f cancelled report pending
        · obtain rfl := Option.some.inj (known.symm.trans known')
          cases intact.symm.trans rebound
        · exact ⟨call, t, f, e, attended', report', failed, by rw [fault]; rfl⟩
      | doomed failed _ _ => cases cancelled.symm.trans failed
      | unheard failed _ => cases cancelled.symm.trans failed
      | rejecting failed _ _ _ _ => cases cancelled.symm.trans failed

/-! ### Runs that have failed -/

theorem Moves.grown (reached : Reachable plan w) (later : Moves plan w w') : Grown w w' := by
  induction later with
  | refl => exact .refl w
  | tail before m ih => exact ih.trans (m.grown (reached.moves before).sound.steady)

theorem Attended.lives (attended : w.Attended run call c) (runs : Runs plan run w) (compiled : plan.tree.Compiled)
    (lives : Lives plan run w w') : w'.Attended run call c := by
  induction lives with
  | refl => exact attended
  | tail before now ih =>
    have runs' := runs.lives before
    exact ih.move runs'.reachable compiled (runs'.calm compiled) now.1

theorem Runs.rejected_of_ordinary (runs : Runs plan run w) (compiled : plan.tree.Compiled)
    (done : w.step plan = none) (failed : (run, .failed h e) ∈ w.notes) (ordinary : e.fault.isOrdinary) :
    ∃ ms e, w.status run = .rejected ms e := by
  obtain ⟨_, x, ms, -, rejected⟩ | ⟨x, ms, -, rejected⟩ := runs.decided compiled (idle_of_step done).1 failed ordinary
  · exact ⟨ms, x, rejected⟩
  · exact ⟨ms, x, rejected⟩

/-- When nothing is left to do, a run in which nothing has failed has resolved, unless user code owes it
something. -/
theorem Runs.resolves (runs : Runs plan run w) (compiled : plan.tree.Compiled) (done : w.step plan = none)
    (unfailed : ∀ h e, (run, .failed h e) ∉ w.notes) (paid : ∀ n, ¬ w.Owes run n) :
    ∃ ms, w.status run = .resolved ms := by
  have undecided (h : Head) (e : Raised) (decides : w.Decides run h e) : False := by
    obtain ⟨later, earlier, noted, -⟩ := decides
    exact unfailed h e (noted ▸ by simp)
  cases runs.decision compiled with
  | undecided running _ =>
    obtain ⟨n, owes⟩ := runs.owed compiled done running fun ⟨h, e, failed, _⟩ => unfailed h e failed
    exact (paid n owes).elim
  | falling _ decides _ => exact (undecided _ _ decides).elim
  | decided decides _ => exact (undecided _ _ decides).elim
  | overruled _ reached late since _ =>
    obtain ⟨h, failed⟩ := late.failed
    exact (unfailed h _ ((Moves.grown (reached.move (.stepped late.stepped)) since).subset_notes failed)).elim
  | resolved resolved => exact ⟨_, resolved⟩

/-- When nothing is left to do, a run has been rejected if and only if an ordinary failure has been noted
in it, or the body of a member that had completed has failed in whatever way. A run in which a failure has
been noted, or a body has failed whose descriptor has not kept that from the run, does not resolve even if
the failure was not ordinary. The cancellation of the body of a member rejects the run if the member has
not reported, and its descriptor is as it was made. -/
theorem rejected_iff_failure_caught {graph : Item} (compiled : Graph.compile graph = .ok plan.tree)
    (runs : Runs plan run w) (done : w.step plan = none) :
    ((∃ ms e, w.status run = .rejected ms e) ↔
        (∃ h e, (run, .failed h e) ∈ w.notes ∧ e.fault.isOrdinary) ∨
          ∃ v v' e, Reachable plan v ∧ v.Belated plan run e v' ∧ Moves plan v' w) ∧
      (((∃ h e, (run, .failed h e) ∈ w.notes) ∨ ∃ h b e, (run, .began h (some b)) ∈ w.notes ∧
          w.settlement? b = some (.failed e) ∧ ∀ d, (run, .unheard h e d) ∉ w.notes) →
        ∀ ms, w.status run ≠ .resolved ms) ∧
      ∀ v v', Runs plan run v → v.Forsaken plan run v' → Lives plan run v' w →
        ∃ ms e, w.status run = .rejected ms e := by
  have compiled' := Tree.compiled_of_compile compiled
  refine ⟨⟨fun ⟨ms, e, rejected⟩ => ?_, ?_⟩, ?_, fun v v' before forsaken lives => ?_⟩
  · cases runs.decision compiled' with
    | undecided running _ =>
      rw [isSettled, rejected] at running
      cases running
    | falling running _ _ =>
      rw [isSettled, rejected] at running
      cases running
    | @decided h e ms decides _ =>
      obtain ⟨later, earlier, noted, ordinary, -, -⟩ := decides
      exact .inl ⟨h, e, by rw [noted]; simp, ordinary⟩
    | overruled _ reached late since _ => exact .inr ⟨_, _, _, reached, late, since⟩
    | resolved resolved => cases rejected.symm.trans resolved
  · rintro (⟨h, e, failed, ordinary⟩ | ⟨v, v', e, reached, late, later⟩)
    · exact runs.rejected_of_ordinary compiled' done failed ordinary
    · obtain ⟨ms, e, rejected⟩ := late.rejects reached compiled'
      have now : v'.isSettled run := by rw [isSettled, rejected]; rfl
      obtain ⟨-, -, same, -⟩ := later.inert (reached.move (.stepped late.stepped)) now
      exact ⟨ms, e, by rw [status, same, ← status, rejected]⟩
  · rintro (⟨h, e, failed⟩ | ⟨h, b, e, began, failed, heard⟩) ms resolved
    · exact (runs.reachable.spoiled compiled' failed).unresolved runs.reachable compiled' resolved
    · obtain ⟨args, called⟩ := runs.reachable.begun began
      obtain ⟨n, -, rfl, r, ran, -⟩ := runs.reachable.resolved_ran compiled' resolved called
      obtain ⟨s, settled, -, told⟩ := ran.bodies b began
      obtain ⟨d, -, unheard⟩ := told e (Option.some.inj (settled.symm.trans failed))
      exact heard d unheard
  · obtain ⟨before', call, t, f, e, attended, report, failed, ordinary⟩ := forsaken.failed before compiled'
    have grown := before'.grown lives
    obtain ⟨_, _, _, other, -⟩ | ⟨x, noted, why⟩ | ⟨⟨_, other⟩, -⟩ := (attended.lives before' compiled' lives).ended
      runs compiled' done (grown.firsts _ _ report) (grown.settlements _ _ failed)
    · cases other
    · refine runs.rejected_of_ordinary compiled' done noted ?_
      rcases why with nature | same
      · simp [Fault.isOrdinary, nature]
      · rwa [same e rfl]
    · cases other

/-- A graph whose only action fails in no ordinary way. -/
def haltingItems : List Item := [
  .leaf (.object 0 0) (.function {
    label := "a"
    signature := [⟨"args", .standard, false⟩, ⟨"store", .standard, false⟩]
    steps := [.raise "BaseCustom" none] } {})]

def halting : Plan where
  tree := Graph.compileItems haltingItems

/-- A run whose only action fails in no ordinary way is neither resolved nor rejected. -/
theorem halted_run_is_left_running : ∃ w h e, Runs halting 0 w ∧ w.step halting = none ∧
    (0, .failed h e) ∈ w.notes ∧ w.status 0 = .running := by
  let w := firstRun halting 30
  have runs : Runs halting 0 w := runs_firstRun _ 27
  have done : (w.step halting).isNone := by decide +kernel
  have fails : w.notes.any fun x => match x with
    | (0, .failed _ _) => true
    | _ => false := by decide +kernel
  have fatal : w.notes.all fun x => match x.2 with
    | .failed _ e => !e.fault.isOrdinary
    | .began _ body => body.isNone
    | _ => true := by decide +kernel
  obtain ⟨⟨run, x⟩, failed, own⟩ := List.any_eq_true.mp fails
  split at own
  case h_2 => cases own
  rename_i h e same
  obtain ⟨rfl, rfl⟩ := Prod.mk.inj same
  have compiled : Graph.compile (.list haltingItems) = .ok halting.tree := rfl
  obtain ⟨rejects, unresolved, -⟩ := rejected_iff_failure_caught compiled runs (Option.isNone_iff_eq_none.mp done)
  refine ⟨w, h, e, runs, Option.isNone_iff_eq_none.mp done, failed, ?_⟩
  cases status : w.status 0 with
  | running => rfl
  | resolved ms => exact absurd status (unresolved (.inl ⟨h, e, failed⟩) ms)
  | rejected ms x =>
    obtain ⟨h, e, failed, ordinary⟩ | ⟨v, v', e, reached, late, later⟩ := rejects.mp ⟨ms, x, status⟩
    · have other := List.all_eq_true.mp fatal _ failed
      simp [ordinary] at other
    · obtain ⟨b, waits⟩ := late.awaits
      obtain ⟨h, began⟩ := reached.awaits waits
      have grown := (Move.grown reached.sound.steady (.stepped late.stepped)).trans
        (Moves.grown (reached.move (.stepped late.stepped)) later)
      simpa using List.all_eq_true.mp fatal _ (grown.subset_notes began)

/-- A group with a member whose body is cancelled after it has completed. -/
def withdrawingItems : List Item := [.list [
  .leaf (.object 0 0) (.function {
    label := "a"
    isAsync := true
    signature := [⟨"args", .standard, false⟩, ⟨"store", .standard, false⟩, ⟨"completion", .standard, false⟩]
    steps := [.call [], .raise "CancelledError" none] } {})]]

def withdrawing : Plan where
  tree := Graph.compileItems withdrawingItems

def bodyCancelled (w : World) (run : RunId) : Bool :=
  w.notes.any fun
    | (other, .began _ (some b)) => other == run && (w.settlement? b matches some (.cancelled _))
    | _ => false

/-- A run resolves although a body in it has been cancelled. -/
theorem resolved_run_hides_cancellation : ∃ w ms, Runs withdrawing 0 w ∧ w.step withdrawing = none ∧
    w.status 0 = .resolved ms ∧ w.bodyCancelled 0 := by
  let w := firstRun withdrawing 60
  have done : (w.step withdrawing).isNone := by decide +kernel
  have resolved : isResolved w 0 := by decide +kernel
  have cancelled : w.bodyCancelled 0 := by decide +kernel
  obtain ⟨ms, resolved⟩ := exists_of_isResolved resolved
  exact ⟨w, ms, runs_firstRun withdrawing 57, Option.isNone_iff_eq_none.mp done, resolved, cancelled⟩

end Conductor.World
