import Conductor.Proofs.Dispatch
import Conductor.Proofs.Escapes

/-!
# What goes on upwards

In a run from whose actions ordinary failures only escape, and whose caller has not been cancelled, a branch list, a
node, a group or a member never fails but with the very error that the run has been rejected with. So whoever tries on
the way up to reject the run with it finds that done, and a group gathers no other failure. Every other failure
that a node meets is discarded, and whoever waits for the node goes on.
-/

namespace Conductor.World

variable {plan : Plan} {w w' : World} {run : RunId} {t f : FutureId} {stack : List Frame} {e : Raised}
  {notes : List Note} {o : Outcome} {s : Settlement}

/-- A run that has been rejected with a failure is found so by whoever tries that again. -/
theorem Final.again (final : w.Final run e) : w.reject plan run e = (.ok true, w) := by
  obtain ⟨ms, error, rejected, own⟩ := final.rejected
  unfold status at rejected
  split at rejected
  · rename_i r known
    rw [reject, known]
    simp only [rejected, own]
  · cases rejected

theorem mannered_of_ordinary (own : w.isWithdrawn run = false)
    (ordinary : ∀ h e, (run, .failed h e) ∈ w.notes → e.fault.nature = .ordinary) : w.Mannered run := by
  refine ⟨ordinary, fun o cause outcome cancelled => ?_⟩
  obtain ⟨r, there, rfl⟩ := Option.map_eq_some_iff.mp outcome
  rw [isWithdrawn, outcomeOf, there] at own
  simp only [cancelled] at own
  cases own

/-! ### Steps of the parts of a run -/

theorem AtWork.task (working : AtWork run t stack w.focus) : w.focus.task? = some t := by
  generalize w.focus = focus at working
  cases working <;> rfl

theorem AtWork.concerns (working : AtWork run t stack w.focus) : w.focus.Concerns run := by
  generalize w.focus = focus at working
  cases working with
  | within own _ => exact stacks_cons.mpr (.inl own)
  | _ => exact .inl rfl

theorem AtWork.acts (working : AtWork run t stack w.focus) (sound : w.Sound) (stepped : w.step plan = some w') :
    ∃ notes tasks w₁ next, Act plan w w.focus notes tasks w₁ next ∧ w' = w₁.focusOn next := by
  have busy := working.task
  cases step_stepped sound.steady stepped with
  | acted act => exact ⟨_, _, _, _, act, rfl⟩
  | suspended here _ =>
    rw [here] at working
    cases working
  | yielded here =>
    rw [here] at working
    cases working
  | ended here =>
    rw [here] at working
    cases working
  | handled idle _ =>
    rw [idle] at busy
    cases busy
  | turned idle _ =>
    rw [idle] at busy
    cases busy

/-- Whether a node of a run meets a failure in a step: it is found to fail with it, or the branch that it has
selected or its body ends with it. -/
inductive Meets (run : RunId) (stack : List Frame) (e : Raised) (w w' : World) : Prop where
  | fails {h : Head} {notes : List Note} (noted : w'.notes = notes ++ w.notes) (failed : (run, .failed h e) ∈ notes)
  | branch {t : FutureId} {call : Call} {body : Option FutureId}
      (here : w.focus = .leave t (.error e) (.following run call body :: stack))
  | body {t : FutureId} {call : Call} {b : FutureId}
      (here : w.focus = .leave t (.error e) (.ending run call b :: stack))

/-- Whether a failure goes on upwards and is the one that the run was rejected with, or is discarded, and is not that
one. -/
inductive Passes (run : RunId) (t : FutureId) (stack : List Frame) (e : Raised) (w : World) : Prop where
  | raised (here : w.focus = .leave t (.error e) stack) (final : w.Final run e)
  | discarded {name : Datum} (here : w.focus = .leave t (.ok .nothing) stack)
      (logged : w.logs.back? = some (.discardedFailure name e.fault))
      (other : ∀ ms error, w.status run = .rejected ms error → error.is e = false)

/-- A node that deals with an ordinary failure hands it on if the run was rejected with it, and discards it
otherwise. -/
theorem Catching.passes (catching : Catching run e notes w w' o) (verdicts : Verdicts w) (roles : w.Roles)
    (known : (w.record? run).isSome) (mannered : w'.Mannered run) (nature : e.fault.nature = .ordinary) :
    Passes run t stack e (w'.focusOn (.leave t o stack)) := by
  obtain ⟨r, there⟩ := Option.isSome_iff_exists.mp known
  have pending := (mannered.before (.effect catching.effect)).pending verdicts roles there
  cases o with
  | error x =>
    obtain ⟨rfl, rejected⟩ := catching.kept nature r there pending x rfl
    exact .raised rfl ⟨nature, rejected⟩
  | ok v =>
    obtain ⟨rfl, ⟨name, logged⟩, other⟩ := catching.discards v rfl
    exact .discarded rfl logged other

theorem Lost.passes {h : Head} {pre : List Note} {next : Focus} (lost : Lost run h e pre t stack w notes w' next)
    (verdicts : Verdicts w) (roles : w.Roles) (known : (w.record? run).isSome) (mannered : w'.Mannered run) :
    Passes run t stack e (w'.focusOn next) := by
  have nature := mannered.ordinary h e lost.noted
  cases lost with
  | @mk rejections w₁ _ o first catching =>
    have noted : Effect [(run, .failed h e)] [] w₁ (w₁.note run (.failed h e)) := .note trivial
    have before := first.trans noted
    exact catching.passes (verdicts.effect roles before) (roles.effect before).1
      ((Grown.effect before).recorded known) mannered nature

theorem Loses.agrees {h : Head} {pre : List Note} {u : FutureId} {rest : List Frame}
    (loses : Loses run u rest h pre w.focus) (working : AtWork run t stack w.focus) : u = t ∧ rest = stack := by
  generalize w.focus = focus at loses working
  cases loses <;> cases working <;> exact ⟨rfl, rfl⟩

section

variable {aim : FutureId → Aim} {tasks : List (FutureId × Routine)} {next : Focus}
  (reached : Reachable plan w) (loyal : Loyal aim w) (sturdy : Sturdy aim run w)
  (act : Act plan w w.focus notes tasks w' next) (working : AtWork run t stack w.focus) (mannered : w'.Mannered run)
include reached loyal sturdy act working mannered

/-- A node that meets a failure hands on the one that its run was rejected with, and discards any other. -/
theorem Act.passes (meets : Meets run stack e w w') : Passes run t stack e (w'.focusOn next) := by
  have busy := working.task
  have verdicts := reached.verdicts
  have roles := reached.sound.roles
  have own : (aim t).run? = some run := loyal.focus t run busy working.concerns
  have known := loyal.recorded own
  have before := mannered.before (.effect act.effect)
  cases meets with
  | @fails h notes' noted failed =>
    obtain rfl : notes = notes' := List.append_cancel_right (act.effect.noted.symm.trans noted)
    cases act.fails failed with
    | lost loses lost =>
      obtain ⟨rfl, rfl⟩ := loses.agrees working
      exact lost.passes verdicts roles known mannered
    | missed _ _ here _ _ =>
      rw [here] at working
      cases working
  | @branch u call body here =>
    obtain rfl : u = t := by simpa [here, Focus.task?] using busy
    have nature : e.fault.nature = .ordinary := by
      rcases sturdy.leaving u e _ here own with taken | blamed
      · cases taken with
        | foreign foreign => cases foreign
        | noting takes => cases takes
        | noted _ noted => exact before.ordinary _ e noted
      · exact (blamed.final before).ordinary
    rw [here] at act
    cases act with
    | replayed foreign _ _ => cases foreign
    | unfollowed catching => exact catching.passes verdicts roles known mannered nature
  | @body u call b here =>
    obtain rfl : u = t := by simpa [here, Focus.task?] using busy
    have blamed := (sturdy.leaving u e _ here own).resolve_left fun taken => taken.absurd rfl rfl (by simp)
    rw [here] at act
    cases act with
    | replayed foreign _ _ => cases foreign
    | unfinished catching => exact catching.passes verdicts roles known mannered (blamed.final before).ordinary

/-- A part of a run fails with nothing but the failure that its run was rejected with. -/
theorem Act.final (ordered : Ordered plan aim w) (here : next = .leave t (.error e) stack) : w'.Final run e := by
  subst here
  have own : (aim t).run? = some run := loyal.focus t run working.task working.concerns
  obtain ⟨-, idle⟩ | blamed := act.blamed reached ordered loyal sturdy own
  · exact absurd working idle
  · exact blamed.final mannered

end

/-! ### Runs -/

/-- What is gathered from the chains of a group is nothing, or the failure that the run was rejected with. -/
theorem Sturdy.gathers {aim : FutureId → Aim} (sturdy : Sturdy aim run w) (mannered : w.Mannered run)
    (waits : w.Waiting t f (.joining run :: stack)) (settled : w.settlement? f = some s) :
    (∃ v, s = .value v) ∨ ∃ e, s = .failed e ∧ w.Final run e := by
  have spent := sturdy.waits t f _ stack s waits rfl rfl settled
  cases s with
  | value v => exact .inl ⟨v, rfl⟩
  | failed e => exact .inr ⟨e, rfl, Blamed.final spent mannered⟩
  | cancelled cause =>
    obtain ⟨-, ill⟩ := spent
    exact absurd mannered ill

/-- In a run from whose actions ordinary failures only escape, and whose caller has not been cancelled, a branch list,
a node, a group or a member fails with nothing but the very error that the run has been rejected with, and whoever
tries to reject the run with it is told so; no other failure is gathered from the chains of a group; and whatever
failure a node meets is handed on if it is that one, and is discarded otherwise, where the node just ends. -/
theorem only_rejecting_error_propagates {graph : Item} (compiled : Graph.compile graph = .ok plan.tree)
    (runs : Runs plan run w) (stepped : w.step plan = some w') (own : w'.isWithdrawn run = false)
    (tame : Tame plan w' run) :
    (∀ t e stack, AtWork run t stack w.focus → w'.focus = .leave t (.error e) stack →
      (∃ ms error, w'.status run = .rejected ms error ∧ error.is e) ∧ w'.reject plan run e = (.ok true, w')) ∧
    (∀ t f stack s, w'.Waiting t f (.joining run :: stack) → w'.settlement? f = some s →
      (∃ v, s = .value v) ∨ ∃ e ms error, s = .failed e ∧ w'.status run = .rejected ms error ∧ error.is e) ∧
    (∀ t e stack, AtWork run t stack w.focus → Meets run stack e w w' → Passes run t stack e w') := by
  have compiled' := Tree.compiled_of_compile compiled
  have reached := runs.reachable
  have mannered : w'.Mannered run := mannered_of_ordinary own (((runs.step stepped).tame_iff compiled').mp tame)
  obtain ⟨aim, ordered, loyal, sturdy, -⟩ := runs.sturdy compiled'
  refine ⟨fun t e stack working here => ?_, fun t f stack s waits settled => ?_, fun t e stack working meets => ?_⟩
  · obtain ⟨notes, tasks, w₁, next, act, rfl⟩ := working.acts reached.sound stepped
    have final := act.final reached loyal sturdy working (mannered.before (.focusOn next)) ordered here
    have final' : (w₁.focusOn next).Final run e := final.of_status rfl
    exact ⟨final'.rejected, final'.again⟩
  · obtain ⟨aim', -, -, sturdy', -⟩ := (runs.step stepped).sturdy compiled'
    rcases sturdy'.gathers mannered waits settled with value | ⟨e, rfl, final⟩
    · exact .inl value
    · obtain ⟨ms, error, rejected, same⟩ := final.rejected
      exact .inr ⟨e, ms, error, rfl, rejected, same⟩
  · obtain ⟨notes, tasks, w₁, next, act, rfl⟩ := working.acts reached.sound stepped
    have meets' : Meets run stack e w w₁ := by
      cases meets with
      | fails noted failed => exact .fails noted failed
      | branch here => exact .branch here
      | body here => exact .body here
    exact act.passes reached loyal sturdy working (mannered.before (.focusOn next)) meets'

theorem Meets.of_report {call : Call} {body : Option FutureId} (sound : w.Sound)
    (here : w.focus = .leave t (.error e) (.completing run call body :: stack)) (stepped : w.step plan = some w') :
    Meets run stack e w w' := by
  have working : AtWork run t stack w.focus := here ▸ .within rfl (by simp)
  obtain ⟨notes, tasks, w₁, next, act, rfl⟩ := working.acts sound stepped
  have noted := act.effect.noted
  rw [here] at act
  cases act with
  | replayed foreign _ _ => cases foreign
  | uncompleted lost => exact .fails noted lost.failed

/-- A group of a sequence and a node, which both fail. -/
def vyingItems : List Item :=
  let action (label fault : String) : Item := .leaf (.object 0 0) (.function {
    label, steps := [.finishRoutine [.raise fault none]],
    signature := [⟨"args", .standard, false⟩, ⟨"store", .standard, false⟩] } {})
  [.list [.list [action "a" "ValueError"], action "b" "KeyError"]]

def vying : Plan where
  tree := Graph.compileItems vyingItems

/-- Whether a run has heard of ordinary failures only, and its caller has not been cancelled. -/
def isMannered (w : World) (run : RunId) : Bool :=
  !w.isWithdrawn run && w.notes.all fun n => match n.2 with
    | .failed _ e => e.fault.nature = .ordinary
    | _ => true

theorem of_isMannered (runs : Runs plan run w) (compiled : plan.tree.Compiled) (mannered : w.isMannered run) :
    w.isWithdrawn run = false ∧ Tame plan w run := by
  obtain ⟨own, noted⟩ := Bool.and_eq_true_iff.mp mannered
  refine ⟨by simpa using own, (runs.tame_iff compiled).mpr fun h e member => ?_⟩
  simpa using List.all_eq_true.mp noted _ member

def isGatherFailing (w : World) (run : RunId) : Bool :=
  match w.focus with
  | .leave _ (.error _) [.joining joined, .branches branching _ _ _, .drive driven] =>
    joined == run && branching == run && driven == run
  | _ => false

def isMemberFailing (w : World) (run : RunId) : Bool :=
  match w.focus with
  | .leave _ (.error _) [.completing own _ _] => own == run
  | _ => false

def isEnding (w : World) : Bool :=
  match w.focus with
  | .leave _ (.ok _) [] => true
  | _ => false

/-- The group fails with the error that the run was rejected with, and what the node fails with then is discarded. -/
theorem losing_failure_is_discarded : ∃ (w w' v v' : World) (t u : FutureId) (e x : Raised) (stack : List Frame),
    (Runs vying 0 w ∧ w.step vying = some w' ∧ AtWork 0 t stack w.focus ∧ w'.focus = .leave t (.error e) stack ∧
      ∃ ms error, w'.status 0 = .rejected ms error ∧ error.is e) ∧
    (Runs vying 0 v ∧ v.step vying = some v' ∧ AtWork 0 u [] v.focus ∧ v'.focus = .leave u (.ok .nothing) [] ∧
      ∃ name, v'.logs.back? = some (.discardedFailure name x.fault)) := by
  have compiled : Graph.compile (.list vyingItems) = .ok vying.tree := rfl
  have gathers : (firstRun vying 34).isGatherFailing 0 := by decide +kernel
  have reports : (firstRun vying 39).isMemberFailing 0 := by decide +kernel
  have first : (firstRun vying 34).isMannered 0 := by decide +kernel
  have later : ((firstRun vying 39).step vying).any fun v' => v'.isMannered 0 && v'.isEnding := by decide +kernel
  have runs : Runs vying 0 (firstRun vying 34) := runs_firstRun vying 31
  have runs' : Runs vying 0 (firstRun vying 39) := runs_firstRun vying 36
  generalize firstRun vying 34 = w at gathers first runs
  generalize firstRun vying 39 = v at reports later runs'
  obtain ⟨v', stepped', both⟩ := (Option.any_eq_true _ _).mp later
  obtain ⟨second, ended⟩ := Bool.and_eq_true_iff.mp both
  unfold isGatherFailing at gathers
  split at gathers
  · rename_i t e _ _ place position rest _ here
    simp only [Bool.and_eq_true, beq_iff_eq] at gathers
    obtain ⟨⟨rfl, rfl⟩, rfl⟩ := gathers
    unfold isMemberFailing at reports
    split at reports
    · rename_i u x _ call body here'
      obtain rfl := eq_of_beq reports
      have stepped : w.step vying =
          some (w.focusOn (.leave t (.error e) [.branches 0 place position rest, .drive 0])) := by
        rw [step, here]
        rfl
      have working : AtWork 0 t [.branches 0 place position rest, .drive 0] w.focus :=
        here ▸ .within rfl (by simp)
      have working' : AtWork 0 u [] v.focus := here' ▸ .within rfl (by simp)
      have made := Tree.compiled_of_compile compiled
      obtain ⟨own, tame⟩ := of_isMannered (runs.step stepped) made first
      obtain ⟨own', tame'⟩ := of_isMannered (runs'.step stepped') made second
      obtain ⟨fails, -, -⟩ := only_rejecting_error_propagates compiled runs stepped own tame
      obtain ⟨-, -, passes⟩ := only_rejecting_error_propagates compiled runs' stepped' own' tame'
      obtain ⟨rejected, -⟩ := fails t e _ working rfl
      have meets : Meets 0 [] x v v' := .of_report runs'.reachable.sound here' stepped'
      cases passes u x [] working' meets with
      | raised there _ =>
        rw [isEnding, there] at ended
        cases ended
      | discarded there logged _ =>
        exact ⟨w, _, v, v', t, u, e, x, _, ⟨runs, stepped, working, rfl, rejected⟩, runs', stepped', working', there,
          _, logged⟩
    · cases reports
  · cases gathers

end Conductor.World
