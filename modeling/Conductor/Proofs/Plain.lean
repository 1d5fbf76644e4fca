import Conductor.Proofs.Scripted

/-!
# Calls that give back nothing to wait for

Whether the call of an action can give back a routine or a future can be read off its script.
-/

namespace Conductor

mutual

/-- Whether a step of a script never returns something to wait for. -/
def Step.isPlain : Step → Bool
  | .finishRoutine _ | .finishFuture _ _ => false
  | .attempt steps => Step.arePlain steps
  | .choose _ _ yes no => Step.arePlain yes && Step.arePlain no
  | _ => true

def Step.arePlain : List Step → Bool
  | [] => true
  | s :: rest => s.isPlain && Step.arePlain rest

end

def Action.body? : Action → Option Function
  | function f _ => some f
  | bound of _ _ _ => of.body?
  | wrapper of _ => of.body?
  | _ => none

def Action.isSynchronous (a : Action) : Bool := a.body?.all fun f => !f.isAsync && Step.arePlain f.steps

/-- Whether a call of an action never gives back anything to wait for. -/
def Action.IsPlain (a : Action) : Prop :=
  ∀ (w : World) (arguments : List Value) (r : Returned), (w.invoke a arguments).1 = .ok r → ∃ type, r = .plain type

def Halt.IsPlain (h : Halt) : Prop := ∀ r, h = .returned r → ∃ type, r = .plain type

namespace World

variable {w : World} {scope : Scope} {h : Halt}

theorem isPlain_other (other : ∀ r, h ≠ .returned r) : h.IsPlain := fun r same => absurd same (other r)

theorem failNow_plain (f : Fault) : (w.failNow f).1.IsPlain := isPlain_other fun _ => nofun

theorem finishWith_plain (r : Except Fault Unit × World) : (finishWith r).1.IsPlain := by
  unfold finishWith
  split
  · exact isPlain_other fun _ => nofun
  · exact failNow_plain _

theorem finishHeap_plain (r : Except Fault Heap) : (w.finishHeap r).1.IsPlain := by
  unfold finishHeap
  split
  · exact isPlain_other fun _ => nofun
  · exact failNow_plain _

theorem withValue_plain {t : Template} {next : World → Value → Halt × World}
    (rest : ∀ w' v, (next w' v).1.IsPlain) : (w.withValue scope t next).1.IsPlain := by
  unfold withValue
  split
  · exact failNow_plain _
  · exact rest _ _

theorem withValues_plain {ts : List Template} {next : World → List Value → Halt × World}
    (rest : ∀ w' vs, (next w' vs).1.IsPlain) : (w.withValues scope ts next).1.IsPlain := by
  unfold withValues
  split
  · exact failNow_plain _
  · exact rest _ _

theorem withResult_plain {r : Except Fault Value} {next : Value → Halt × World}
    (rest : ∀ v, (next v).1.IsPlain) : (w.withResult r next).1.IsPlain := by
  unfold withResult
  split
  · exact failNow_plain _
  · exact rest _

theorem withFound_plain {container k : Value} {a : Attribute} {next : World → Value → Halt × World}
    (rest : ∀ w' v, (next w' v).1.IsPlain) : (w.withFound container a k next).1.IsPlain := by
  unfold withFound
  split
  · split
    · exact failNow_plain _
    · exact rest _ _
  · split
    · exact failNow_plain _
    · exact rest _ _

theorem caught_plain {r : Halt × World} (plain : r.1.IsPlain) : (caught r).1.IsPlain := by
  unfold caught
  split
  · split <;> exact isPlain_other fun _ => nofun
  · exact plain

theorem within_plain (plain : h.IsPlain) (outer : List (List Step)) (rest : List Step) :
    (h.within outer rest).IsPlain := by
  cases h with
  | paused what own => exact isPlain_other fun _ => nofun
  | _ => exact plain

theorem before_plain (plain : h.IsPlain) (rest : List Step) : (h.before rest).IsPlain := by
  cases h with
  | paused what own => exact isPlain_other fun _ => nofun
  | _ => exact plain

mutual

theorem runStep_plain (scope : Scope) (s : Step) (plain : s.isPlain) (w : World) :
    (runStep scope s w).1.IsPlain := by
  match s with
  | .log _ | .run _ => exact withValue_plain fun _ _ => isPlain_other fun _ => nofun
  | .get _ => exact withValue_plain fun _ _ => withResult_plain fun _ => isPlain_other fun _ => nofun
  | .commit _ _ =>
    unfold runStep
    split
    · exact failNow_plain _
    · exact withValue_plain fun _ _ => withValue_plain fun _ _ => withResult_plain fun _ => finishWith_plain _
  | .set _ _ => exact withValue_plain fun _ _ => withValue_plain fun _ _ => finishHeap_plain _
  | .delete _ => exact withValue_plain fun _ _ => finishHeap_plain _
  | .append _ _ =>
    refine withValue_plain fun _ _ => withResult_plain fun _ => ?_
    split
    · exact failNow_plain _
    · exact withValue_plain fun _ _ => finishWith_plain _
  | .call _ => exact withValues_plain fun _ _ => finishWith_plain _
  | .attribute _ _ =>
    unfold runStep
    split
    · exact failNow_plain _
    · exact withValues_plain fun _ _ => finishWith_plain _
  | .use _ _ =>
    unfold runStep
    split
    · exact failNow_plain _
    · exact withValues_plain fun _ _ => finishWith_plain _
  | .raise _ _ => exact failNow_plain _
  | .attempt steps =>
    exact within_plain (caught_plain (runSteps_plain scope steps (by simpa [Step.isPlain] using plain) w)) [] []
  | .choose _ _ yes no =>
    rw [Step.isPlain, Bool.and_eq_true] at plain
    unfold runStep
    split
    · exact failNow_plain _
    · refine withValue_plain fun _ _ => withFound_plain fun _ _ => withValue_plain fun w' _ => ?_
      split
      · exact runSteps_plain scope yes plain.1 w'
      · exact runSteps_plain scope no plain.2 w'
  | .finish _ =>
    refine withValue_plain fun _ v r same => ⟨v.typeName, ?_⟩
    exact (Halt.returned.inj same).symm
  | .see | .stash _ | .raiseShared _ _ _ | .later _ _ | .soon _ | .sleep _ => exact isPlain_other fun _ => nofun
  | .finishRoutine _ | .finishFuture _ _ => cases plain

theorem runSteps_plain (scope : Scope) (steps : List Step) (plain : Step.arePlain steps) (w : World) :
    (runSteps scope steps w).1.IsPlain := by
  match steps with
  | [] => exact isPlain_other fun _ => nofun
  | s :: rest =>
    obtain ⟨first, others⟩ := Bool.and_eq_true_iff.mp plain
    have own := runStep_plain scope s first w
    unfold runSteps
    split <;> rename_i same <;> rw [same] at own
    · exact runSteps_plain scope rest others _
    · exact before_plain own rest

end

theorem prepare_body? {a : Action} {positional : List Value} {keyword : List (String × Value)} {p : Prepared}
    (fits : a.prepare positional keyword = .ok p) : a.body? = some p.function := by
  induction a generalizing positional keyword with
  | function f _ =>
    unfold Action.prepare Function.prepare at fits
    dsimp only at fits
    split at fits
    · cases fits
    · obtain rfl := Except.ok.inj fits
      rfl
  | bound of first named _ ih => exact ih fits
  | wrapper of _ ih =>
    unfold Action.prepare at fits
    split at fits
    · exact ih fits
    · cases fits
  | length => cases fits
  | dictionary => cases fits
  | value _ _ => cases fits

theorem constructed_plain {type : String} {made : Except Raised Returned} {r : Returned}
    (gives : (w.constructed type made).1 = .ok r) : ∃ type, r = .plain type := by
  unfold constructed at gives
  split at gives
  · exact ⟨_, (Except.ok.inj gives).symm⟩
  · cases gives
  · cases gives

theorem isPlain_of_isSynchronous {a : Action} (synchronous : a.isSynchronous) : a.IsPlain := by
  intro w arguments r gives
  rw [invoke_eq] at gives
  split at gives
  · cases gives
  · rename_i f scope fits
    rw [Action.isSynchronous, prepare_body? fits, Option.all_some, Bool.and_eq_true] at synchronous
    have own := runSteps_plain scope f.steps synchronous.2 w
    have inside : ∀ r, (w.called f scope).1 = .ok r → ∃ type, r = .plain type := by
      intro r same
      rw [called, if_neg (c := f.isAsync = true) (by simpa using synchronous.1)] at same
      split at same
      · exact ⟨_, (Except.ok.inj same).symm⟩
      · split at same <;> rename_i eq <;> rw [eq] at own
        · cases same
        · exact own r (congrArg Halt.returned (Except.ok.inj same))
        · exact ⟨_, (Except.ok.inj same).symm⟩
    split at gives
    · exact constructed_plain gives
    · exact inside r gives

end World

end Conductor
