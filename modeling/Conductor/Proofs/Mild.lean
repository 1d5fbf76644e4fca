import Conductor.Proofs.Phases

/-!
# Scripts that write nothing

Most scripts make values, report, wait or fail, and leave the mappings alone that were there before them.
Whether one does can be read off its steps.
-/

namespace Conductor

mutual

/-- Whether a step of a script writes no mapping that was there before. -/
def Step.isMild : Step → Bool
  | .set _ _ | .delete _ | .append _ _ | .attribute _ _ | .commit _ _ | .choose _ _ _ _ => false
  | .attempt steps => Step.areMild steps
  | _ => true

def Step.areMild : List Step → Bool
  | [] => true
  | s :: rest => s.isMild && Step.areMild rest

end

def Action.isMild : Action → Bool
  | function f _ => Step.areMild f.steps
  | bound of _ _ _ => of.isMild
  | wrapper of _ => of.isMild
  | _ => true

namespace World

def isMild (plan : Plan) (w : World) : Bool :=
  match w.focus with
  | .enter _ (.script _ rest) _ => rest.attempts.all Step.areMild && Step.areMild rest.steps
  | .enter _ (.sequential _ node) _ => (plan.tree.actionFor node).isMild
  | .enter _ (.dispatch _ _ _ (.node head outputs :: _) _) _ => (plan.tree.actionFor ⟨head, outputs⟩).isMild
  | .idle =>
    match w.nextJob? with
    | some (.callback _ steps, _) => Step.areMild steps
    | _ => true
  | _ => true

variable {plan : Plan} {w w' : World} {run : RunId} {node : Node}

theorem withValue_keeps {scope : Scope} {t : Template} {next : World → Value → Halt × World}
    (rest : ∀ (w' : World) v, w'.heap.Keeps (next w' v).2.heap) : w.heap.Keeps (w.withValue scope t next).2.heap := by
  have made := Template.eval_keeps (w.surroundings scope) t w.heap
  unfold World.withValue World.eval
  dsimp only
  split
  · rename_i same
    obtain ⟨-, rfl⟩ := Prod.mk.inj same
    exact made
  · rename_i same
    obtain ⟨-, rfl⟩ := Prod.mk.inj same
    exact made.trans (rest { w with heap := _ } _)

theorem withValues_keeps {scope : Scope} {ts : List Template} {next : World → List Value → Halt × World}
    (rest : ∀ (w' : World) vs, w'.heap.Keeps (next w' vs).2.heap) :
    w.heap.Keeps (w.withValues scope ts next).2.heap := by
  have made := Template.evalList_keeps (w.surroundings scope) ts w.heap
  unfold World.withValues World.evalList
  dsimp only
  split
  · rename_i same
    obtain ⟨-, rfl⟩ := Prod.mk.inj same
    exact made
  · rename_i same
    obtain ⟨-, rfl⟩ := Prod.mk.inj same
    exact made.trans (rest { w with heap := _ } _)

theorem callValue_keeps (v : Value) (arguments : List Value) :
    w.heap.Keeps (finishWith (w.callValue v arguments)).2.heap := by
  have same : (w.callValue v arguments).2.heap = w.heap := by
    unfold callValue
    split
    · unfold callCompletion
      split
      · rfl
      · unfold recordReport
        split
        · exact (Untouched.record _ _).heap
        · rfl
    · rfl
  unfold finishWith
  split <;> rename_i eq <;> rw [eq] at same
  · exact same ▸ .refl _
  · exact same ▸ .refl _

theorem returnFuture_heap (ticks : Option Nat) (how : FutureEnd) : (w.returnFuture ticks how).2.heap = w.heap := by
  unfold returnFuture
  dsimp only
  split
  · rfl
  · split
    · rename_i ok
      obtain ⟨n, s, -, rfl⟩ := reachTime_ok ok
      exact (Untouched.settle _ s).heap
    · rfl

theorem caught_heap (r : Halt × World) : (caught r).2.heap = r.2.heap := by
  unfold caught
  split
  · split <;> rfl
  · rfl

theorem sharedFault_heap (slot name : String) (message : Option String) :
    (w.sharedFault slot name message).2.heap = w.heap := by
  unfold sharedFault
  split
  · rfl
  · split <;> rfl

mutual

theorem runStep_keeps (scope : Scope) (s : Step) (mild : s.isMild) (w : World) :
    w.heap.Keeps (runStep scope s w).2.heap := by
  match s with
  | .log _ => exact withValue_keeps fun _ _ => .refl _
  | .get _ =>
    refine withValue_keeps fun w' _ => ?_
    unfold withResult
    split <;> exact .refl _
  | .call _ => exact withValues_keeps fun _ _ => callValue_keeps _ _
  | .use _ _ =>
    unfold runStep
    split
    · exact .refl _
    · exact withValues_keeps fun _ _ => callValue_keeps _ _
  | .raiseShared slot name message => exact (sharedFault_heap (w := w) slot name message) ▸ .refl _
  | .soon steps => exact (Untouched.post (w := w) (j := .callback scope steps) w.agenda.loop).heap ▸ .refl _
  | .attempt steps =>
    have kept := runSteps_keeps scope steps (by simpa [Step.isMild] using mild) w
    exact (caught_heap _).symm ▸ kept
  | .run _ | .finish _ => exact withValue_keeps fun _ _ => .refl _
  | .finishFuture ticks how => exact (returnFuture_heap (w := w) ticks how) ▸ .refl _
  | .see | .stash _ | .raise _ _ | .later _ _ | .sleep _ | .finishRoutine _ => exact .refl _
  | .commit _ _ | .set _ _ | .delete _ | .append _ _ | .attribute _ _ | .choose _ _ _ _ => cases mild

theorem runSteps_keeps (scope : Scope) (steps : List Step) (mild : Step.areMild steps) (w : World) :
    w.heap.Keeps (runSteps scope steps w).2.heap := by
  match steps with
  | [] => exact .refl _
  | s :: rest =>
    obtain ⟨first, others⟩ := Bool.and_eq_true_iff.mp mild
    have kept := runStep_keeps scope s first w
    unfold runSteps
    split <;> rename_i same <;> rw [same] at kept
    · exact kept.trans (runSteps_keeps scope rest others _)
    · exact kept

end

theorem runFrom_keeps (scope : Scope) {rest : List Step} (mild : Step.areMild rest) (attempts : List (List Step))
    (all : attempts.all Step.areMild) (w : World) : w.heap.Keeps (runFrom scope rest attempts w).2.heap := by
  induction attempts generalizing w with
  | nil => exact runSteps_keeps scope rest mild w
  | cons steps outer ih =>
    obtain ⟨first, others⟩ := Bool.and_eq_true_iff.mp all
    have kept : w.heap.Keeps (caught (runSteps scope steps w)).2.heap :=
      (caught_heap _).symm ▸ runSteps_keeps scope steps first w
    unfold runFrom
    split <;> rename_i same <;> rw [same] at kept
    · exact kept.trans (ih others _)
    · exact kept

theorem prepare_isMild {a : Action} {positional : List Value} {keyword : List (String × Value)} {p : Prepared}
    (mild : a.isMild) (fits : a.prepare positional keyword = .ok p) : Step.areMild p.function.steps := by
  induction a generalizing positional keyword with
  | function f _ =>
    unfold Action.prepare Function.prepare at fits
    dsimp only at fits
    split at fits
    · cases fits
    · obtain rfl := Except.ok.inj fits
      exact mild
  | bound of first named _ ih => exact ih mild fits
  | wrapper of _ ih =>
    unfold Action.prepare at fits
    split at fits
    · exact ih mild fits
    · cases fits
  | length => cases fits
  | dictionary => cases fits
  | value _ _ => cases fits

theorem constructed_heap (type : String) (r : Except Raised Returned) : (w.constructed type r).2.heap = w.heap := by
  unfold constructed
  split <;> rfl

theorem invoke_keeps {a : Action} (mild : a.isMild) (arguments : List Value) :
    w.heap.Keeps (w.invoke a arguments).2.heap := by
  rw [invoke_eq]
  split
  · exact .refl _
  · rename_i f scope fits
    have kept := runSteps_keeps scope f.steps (prepare_isMild mild fits) w
    have inside : w.heap.Keeps (w.called f scope).2.heap := by
      unfold called
      split
      · exact .refl _
      · split
        · exact .refl _
        · split <;> rename_i eq <;> rw [eq] at kept <;> exact kept
    split
    · exact (constructed_heap _ _).symm ▸ inside
    · exact inside

theorem userCode_keeps (mild : w.isMild plan) : (userCode plan w).1.heap.Keeps (userCode plan w).2.heap := by
  have called {run : RunId} {node : Node} {policy : Policy} (mild : (plan.tree.actionFor node).isMild) :
      (calling plan run node policy w).1.heap.Keeps (calling plan run node policy w).2.heap := invoke_keeps mild _
  unfold isMild at mild
  unfold userCode
  split
  · rename_i scope rest _ here
    rw [here] at mild
    obtain ⟨attempts, steps⟩ := Bool.and_eq_true_iff.mp mild
    exact runFrom_keeps scope steps rest.attempts attempts w
  · rename_i here
    rw [here] at mild
    exact called mild
  · rename_i here
    rw [here] at mild
    exact called mild
  · rename_i here
    rw [here] at mild
    dsimp only at mild
    split
    · rename_i next
      rw [next] at mild
      exact runSteps_keeps _ _ mild _
    · exact .refl _
  · exact .refl _

end World

end Conductor
