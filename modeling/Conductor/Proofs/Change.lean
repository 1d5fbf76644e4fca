import Conductor.Proofs.Acts

/-!
# Changes of a machine

A step of the machine consists of effects, during which the task at work stays the same, and of a
last move that hands over to a routine, a frame, or another job. What holds of the queue, of futures
and of tasks is proved for each kind of effect and of move, and so for every step.
-/

namespace Conductor

namespace World

/-- How the task at work hands over to what comes next. -/
inductive Handover : World → World → Prop where
  | focused {w : World} (f : Focus) (busy : w.focus.task?.isSome) (same : f.task? = w.focus.task?)
      (proper : f.Proper) : Handover w (w.focusOn f)
  | suspended {w : World} {t f : FutureId} {stack : List Frame}
      (busy : w.focus = .enter t (.wait f) stack) (pending : w.settlement? f = none) :
      Handover w (w.suspend t f stack)
  | yielded {w : World} {t : FutureId} {stack : List Frame} (busy : w.focus = .enter t .yield stack) :
      Handover w (((w.setPosition t (.suspended stack) none).post w.agenda.loop
        (.resume t)).focusOn .idle)
  | ended {w : World} {t : FutureId} {o : Outcome} (busy : w.focus = .leave t o []) :
      Handover w (w.endTask t o)

inductive Told : Job → List Note → World → World → Prop where
  | played {j : Job} {w w' : World} (h : Scripted w w') : Told j [] w w'
  | body {run : RunId} {node : Node} {c : CompletionId} {explicit : Bool} {body : FutureId}
      {notes : List Note} {w w' : World} (ends : BodyEnds run node.head c body w notes w') :
      Told (.bodyEnded run node c explicit body) notes w w'

inductive Handled : Job → World → World → Prop where
  | effect {j : Job} {w w' : World} {notes : List Note} (h : Effect notes [] w w')
      (told : Told j notes w w') : Handled j w w'
  | resumed {t : FutureId} {w : World} : Handled (.resume t) w (w.resumeTask t (.ok .nothing))
  | woken {t f : FutureId} {w : World} {s : Settlement} (settled : w.settlement? f = some s) :
      Handled (.wake t f) w ((w.deliver s).2.resumeTask t (w.deliver s).1)
  | counted {g c : FutureId} {w : World} : Handled (.childEnded g c) w (w.childEnded g c)
  | freed {g f : FutureId} {w : World} : Handled (.release g f) w (w.settle g (.value .nothing))
  | matured {f : FutureId} {how : FutureEnd} {w : World} {s : Settlement} (n : Nat)
      (proper : s.Proper) : Handled (.settle f how) w ((w.raisedTo n).settle f s)
  | stopped {w : World} :
      Handled .stop w { w with agenda := { w.agenda with stopping := true } }

inductive Change : World → World → Prop where
  | worked {w w₁ w' : World} {notes : List Note} {tasks : List (FutureId × Routine)}
      (h : Effect notes tasks w w₁) (past : Handover w₁ w') : Change w w'
  | handled {w w₁ w' : World} {j : Job} (idle : w.focus = .idle) (next : w.nextJob? = some (j, w₁))
      (h : Handled j w₁ w') : Change w w'
  | turned {w w' : World} (idle : w.focus = .idle) (next : w.nextTurn? = some w') : Change w w'

variable {w w' : World}

theorem Change.act {plan : Plan} {notes : List Note} {tasks : List (FutureId × Routine)} {w₁ : World}
    {next : Focus} (h : Act plan w w.focus notes tasks w₁ next) (proper : w.focus.Proper)
    (settlements : ∀ f s, w.settlement? f = some s → s.Proper) : Change w (w₁.focusOn next) := by
  obtain ⟨busy, same⟩ := h.task
  have there : w₁.focus = w.focus := h.effect.focus
  refine .worked h.effect (.focused next ?_ ?_ (h.proper proper settlements))
  · rw [there]
    exact busy
  · rw [there]
    exact same

theorem Handled.runJob {plan : Plan} {j : Job}
    (settlements : ∀ f s, w.settlement? f = some s → s.Proper) : Handled j w (w.runJob plan j) := by
  have scripted {w' : World} (h : Scripted w w') : Handled j w w' := .effect (.scripted h) (.played h)
  unfold World.runJob
  split
  · exact .resumed
  · split
    · rename_i s settled
      exact .woken settled
    · exact scripted (.refl w)
  · rename_i run node c explicit body
    obtain ⟨notes, ends⟩ := bodyEnded_ends plan run node c explicit body
      fun e failed => settlements body (.failed e) failed
    exact .effect ends.effect (.body ends)
  · exact .counted
  · exact .freed
  · rename_i scope steps
    have played := (played_runSteps scope steps w).scripted
    split <;> rename_i same <;> rw [same] at played
    · exact scripted (played.trans (scripted_emit _ _))
    · exact scripted played
  · split
    · rename_i ok
      obtain ⟨n, s, proper, rfl⟩ := reachTime_ok ok
      exact .matured n proper
    · exact scripted (scripted_emit _ _)
  · exact .stopped

theorem Steady.handled {plan : Plan} {j : Job} (steady : w.Steady) (next : w.nextJob? = some (j, w')) :
    Handled j w' (w'.runJob plan j) :=
  .runJob fun f s settled => steady.settlements f s ((settlement?_congr (nextJob_futures next)).symm.trans settled)

/-- The steps of a machine: an act, the end of one, or a job of the queue. -/
inductive Stepped (plan : Plan) (w : World) : World → Prop where
  | acted {notes : List Note} {tasks : List (FutureId × Routine)} {w₁ : World} {next : Focus}
      (act : Act plan w w.focus notes tasks w₁ next) : Stepped plan w (w₁.focusOn next)
  | suspended {t f : FutureId} {stack : List Frame} (busy : w.focus = .enter t (.wait f) stack)
      (pending : w.settlement? f = none) : Stepped plan w (w.suspend t f stack)
  | yielded {t : FutureId} {stack : List Frame} (busy : w.focus = .enter t .yield stack) :
      Stepped plan w (((w.setPosition t (.suspended stack) none).post w.agenda.loop
        (.resume t)).focusOn .idle)
  | ended {t : FutureId} {o : Outcome} (busy : w.focus = .leave t o []) :
      Stepped plan w (w.endTask t o)
  | handled {j : Job} {w₁ : World} (idle : w.focus = .idle) (next : w.nextJob? = some (j, w₁)) :
      Stepped plan w (w₁.runJob plan j)
  | turned {w' : World} (idle : w.focus = .idle) (next : w.nextTurn? = some w') : Stepped plan w w'

theorem step_stepped {plan : Plan} (steady : w.Steady) (stepped : w.step plan = some w') :
    Stepped plan w w' := by
  unfold step at stepped
  split at stepped
  · rename_i t r stack busy
    obtain rfl := Option.some.inj stepped
    rcases lead_enterRoutine plan steady busy with ⟨notes, tasks, w₁, next, act, same⟩ |
      ⟨f, rfl, pending, same⟩ | ⟨rfl, same⟩ <;> rw [same]
    · exact .acted act
    · exact .suspended busy pending
    · exact .yielded busy
  · rename_i t o busy
    obtain rfl := Option.some.inj stepped
    exact .ended busy
  · rename_i t v frame stack busy
    obtain rfl := Option.some.inj stepped
    obtain ⟨notes, tasks, w₁, next, act, same⟩ := lead_resumeFrame plan t stack v frame w
    rw [same]
    exact .acted (busy ▸ act)
  · rename_i t e frame stack busy
    obtain rfl := Option.some.inj stepped
    have proper := steady.outcome
    rw [busy] at proper
    obtain ⟨notes, tasks, w₁, next, act, same⟩ := lead_unwindFrame plan t stack frame w (proper e rfl)
    rw [same]
    exact .acted (busy ▸ act)
  · rename_i idle
    split at stepped
    · rename_i j w₁ next
      obtain rfl := Option.some.inj stepped
      exact .handled idle next
    · exact .turned idle stepped

theorem step_change {plan : Plan} (steady : w.Steady) (stepped : w.step plan = some w') :
    Change w w' := by
  cases step_stepped steady stepped with
  | acted act => exact .act act steady.outcome steady.settlements
  | suspended busy pending => exact .worked (.refl w) (.suspended busy pending)
  | yielded busy => exact .worked (.refl w) (.yielded busy)
  | ended busy => exact .worked (.refl w) (.ended busy)
  | handled idle next => exact .handled idle next (steady.handled next)
  | turned idle next => exact .turned idle next

/-! ### Going on with a task -/

/-- A task that is made the one at work goes on with what it waited for, or with a cancellation. -/
theorem wakeUp_cases (t : FutureId) (mustCancel : Bool) (o : Outcome) :
    ∃ o' n, w.wakeUp t mustCancel o = (o', (w.activate t).raisedTo n) ∧
      (o' = o ∨ ∃ e, o' = .error e ∧ e.fault.nature = .cancelled ∧ mustCancel = true) := by
  unfold wakeUp
  dsimp only
  split
  · rename_i asked
    exact ⟨_, _, rfl, .inr ⟨_, rfl, rfl, (Bool.and_eq_true_iff.mp asked).1⟩⟩
  · exact ⟨o, w.raisedCount, rfl, .inl rfl⟩

/-- A task goes on from where it stands, if it has not ended and is not at work. -/
theorem resumeTask_cases (t : FutureId) (o : Outcome) :
    w.resumeTask t o = w ∨ ∃ p waiting mustCancel f n o', w.settlement? t = none ∧
      w.purpose? t = some (.task p waiting mustCancel) ∧
      (o' = o ∨ ∃ e, o' = .error e ∧ e.fault.nature = .cancelled ∧ mustCancel = true) ∧
      w.resumeTask t o = ((w.activate t).raisedTo n).focusOn f ∧
      ((∃ r, p = .unstarted r ∧
          ((∃ v, o' = .ok v ∧ f = .enter t r []) ∨ ∃ e, o' = .error e ∧ f = .leave t (.error e) [])) ∨
        ∃ stack, p = .suspended stack ∧ f = .leave t o' stack) := by
  unfold resumeTask
  split
  · rename_i loop callbacks r waiting mustCancel found
    obtain ⟨o', n, same, kind⟩ := wakeUp_cases (w := w) t mustCancel o
    rw [same]
    have pending : w.settlement? t = none := by simp [settlement?, found]
    have own : w.purpose? t = some (.task (.unstarted r) waiting mustCancel) := by
      simp [purpose?, found]
    cases o' with
    | ok v =>
      exact .inr ⟨_, _, _, _, n, _, pending, own, kind, rfl, .inl ⟨r, rfl, .inl ⟨v, rfl, rfl⟩⟩⟩
    | error e =>
      exact .inr ⟨_, _, _, _, n, _, pending, own, kind, rfl, .inl ⟨r, rfl, .inr ⟨e, rfl, rfl⟩⟩⟩
  · rename_i loop callbacks stack waiting mustCancel found
    obtain ⟨o', n, same, kind⟩ := wakeUp_cases (w := w) t mustCancel o
    rw [same]
    have pending : w.settlement? t = none := by simp [settlement?, found]
    have own : w.purpose? t = some (.task (.suspended stack) waiting mustCancel) := by
      simp [purpose?, found]
    exact .inr ⟨_, _, _, _, n, o', pending, own, kind, rfl, .inr ⟨stack, rfl, rfl⟩⟩
  · exact .inl rfl

/-- What a joint future is settled with when a child ends: with a value if the child is the last one to
end and has ended with one, and else with the failure of the child or with a cancellation. -/
def Concludes (children : List FutureId) (ended : Nat) (requested : Bool) (s : Settlement) : Settlement → Prop
  | .value _ => (∃ v, s = .value v) ∧ children.length ≤ ended + 1
  | .failed e => s = .failed e ∨
    ((∃ cause, s = .cancelled cause) ∨ requested = true) ∧ (s.Proper → e.fault.nature = .cancelled)
  | .cancelled _ => False

/-- A joint future counts a child that has ended. It is settled when all its children are counted, or
when one of them has not ended with a value. -/
theorem childEnded_cases (g c : FutureId) :
    w.childEnded g c = w ∨ ∃ children ended requested s n, w.settlement? c = some s ∧
      w.purpose? g = some (.joint children ended requested) ∧
      ∀ w₁, w₁ = w.repurpose g (.joint children (ended + 1) requested) →
        (w.childEnded g c = w₁ ∧
          (w.settlement? g = none → (∃ v, s = .value v) ∧ ended + 1 < children.length)) ∨
        ∃ s', w.childEnded g c = (w₁.raisedTo n).settle g s' ∧
          (s.Proper → s'.Proper) ∧ Concludes children ended requested s s' := by
  unfold childEnded
  split
  · rename_i x s found settled
    split
    · rename_i children ended requested joint
      have own : w.purpose? g = some (.joint children ended requested) := by
        simp [purpose?, found, joint]
      dsimp only
      split
      · rename_i past
        refine .inr ⟨_, _, _, s, 0, settled, own, fun w₁ same => .inl ⟨same.symm, fun pending => ?_⟩⟩
        simp [settlement?, found] at pending
        simp [pending] at past
      · split
        · rename_i e
          refine .inr ⟨_, _, _, _, w.raisedCount, settled, own, fun w₁ same => .inr ⟨.failed e, ?_, ?_⟩⟩
          · rw [same]
            rfl
          · exact ⟨fun proper => proper, .inl rfl⟩
        · rename_i cause
          cases cause with
          | some e =>
            refine .inr ⟨_, _, _, _, w.raisedCount, settled, own, fun w₁ same =>
              .inr ⟨.failed e, ?_, ?_⟩⟩
            · rw [same]
              rfl
            · refine ⟨fun proper => ?_, .inr ⟨.inl ⟨_, rfl⟩, fun proper => proper e rfl⟩⟩
              have nature : e.fault.nature = .cancelled := proper e rfl
              simp [Settlement.Proper, nature]
          | none =>
            refine .inr ⟨_, _, _, _, w.raisedCount + 1, settled, own, fun w₁ same =>
              .inr ⟨.failed ⟨w.raisedCount, .cancelled⟩, ?_, ?_⟩⟩
            · rw [same]
              rfl
            · exact ⟨fun _ => by simp [Settlement.Proper, Fault.nature], .inr ⟨.inl ⟨_, rfl⟩, fun _ => rfl⟩⟩
        · rename_i v
          split
          · rename_i short
            exact .inr ⟨_, _, _, _, 0, settled, own, fun w₁ same =>
              .inl ⟨same.symm, fun _ => ⟨⟨v, rfl⟩, short⟩⟩⟩
          · rename_i all
            split
            · rename_i asked
              refine .inr ⟨_, _, _, _, w.raisedCount + 1, settled, own, fun w₁ same =>
                .inr ⟨.failed ⟨w.raisedCount, .cancelled⟩, ?_, ?_⟩⟩
              · rw [same]
                rfl
              · exact ⟨fun _ => by simp [Settlement.Proper, Fault.nature], .inr ⟨.inr asked, fun _ => rfl⟩⟩
            · refine .inr ⟨_, _, _, _, w.raisedCount, settled, own, fun w₁ same =>
                .inr ⟨.value .nothing, ?_, fun _ => trivial, ⟨v, rfl⟩, by omega⟩⟩
              rw [same]
              rfl
    · exact .inl rfl
  · exact .inl rfl

def Delivers (o : Outcome) : Settlement → Prop
  | .value v => o = .ok v
  | .failed e => o = .error e
  | .cancelled _ => ∃ e, o = .error e ∧ e.fault.nature = .cancelled

theorem endTask_cases (t : FutureId) (o : Outcome) :
    ∃ s, w.endTask t o = ((w.setPosition t .active none).settle t s).focusOn .idle ∧
      (Outcome.Proper o → s.Proper) ∧ Delivers o s := by
  cases o with
  | ok v => exact ⟨.value v, rfl, fun _ => trivial, rfl⟩
  | error e =>
    by_cases nature : e.fault.nature = .cancelled
    · refine ⟨.cancelled (some e), ?_, fun _ e' same => ?_, e, rfl, nature⟩
      · unfold endTask
        simp only [nature, if_true]
        rfl
      · obtain rfl := Option.some.inj same
        exact nature
    · refine ⟨.failed e, ?_, fun proper => proper e rfl, rfl⟩
      unfold endTask
      simp only [nature, if_false]
      rfl

/-! ### What every change keeps -/

variable {f g : FutureId} {j : Job}

namespace Grown

theorem nextJob (next : w.nextJob? = some (j, w')) : Grown w w' := by
  obtain ⟨_, _, -, rfl⟩ := nextJob_cases next
  exact aside rfl rfl rfl rfl

theorem nextTurn (next : w.nextTurn? = some w') : Grown w w' := by
  obtain ⟨_, -, rfl⟩ := nextTurn_cases next
  exact aside rfl rfl rfl rfl

theorem resumeTask (t : FutureId) (o : Outcome) : Grown w (w.resumeTask t o) := by
  obtain same | ⟨p, waiting, mustCancel, f, n, o', -, own, -, same, -⟩ :=
    resumeTask_cases (w := w) t o <;> rw [same]
  · exact refl w
  · have begun := repurpose (q := .task .active none false) own rfl
    exact (begun.trans (raisedTo n)).trans (focusOn f)

theorem childEnded (g c : FutureId) : Grown w (w.childEnded g c) := by
  obtain same | ⟨children, ended, requested, s, n, -, own, result⟩ :=
    childEnded_cases (w := w) g c
  · rw [same]
    exact refl w
  · have counted := repurpose (q := .joint children (ended + 1) requested) own rfl
    obtain ⟨same, -⟩ | ⟨s', same, -, -⟩ := result _ rfl
    · rw [same]
      exact counted
    · rw [same]
      exact (counted.trans (raisedTo n)).trans settle

theorem endTask (t : FutureId) (o : Outcome) : Grown w (w.endTask t o) :=
  ((setPosition _ _).trans settle).trans (focusOn .idle)

theorem suspend (t f : FutureId) (stack : List Frame) : Grown w (w.suspend t f stack) :=
  ((setPosition _ _).trans onSettled).trans (focusOn .idle)

theorem handover (h : Handover w w') : Grown w w' := by
  cases h with
  | focused f _ _ _ => exact focusOn f
  | suspended _ _ => exact suspend _ _ _
  | yielded _ => exact ((setPosition _ _).trans (post _)).trans (focusOn .idle)
  | ended _ => exact endTask _ _

theorem handled (h : Handled j w w') : Grown w w' := by
  cases h with
  | effect h _ => exact effect h
  | resumed => exact resumeTask _ _
  | woken _ => exact (effect (.deliver _)).trans (resumeTask _ _)
  | counted => exact childEnded _ _
  | freed => exact settle
  | matured n _ => exact (raisedTo n).trans settle
  | stopped => exact aside rfl rfl rfl rfl

theorem change (h : Change w w') : Grown w w' := by
  cases h with
  | worked h past => exact (effect h).trans (handover past)
  | handled _ next h => exact (nextJob next).trans (handled h)
  | turned _ next => exact nextTurn next

end Grown

end World

end Conductor
