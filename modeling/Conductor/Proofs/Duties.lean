import Conductor.Proofs.Done
import Conductor.Proofs.Phases

/-!
# What actions owe in their calls

An action does its part in a call when it gives back nothing to wait for and has reported, by the time the call
returns, something that can be merged and that selects no output or one with a branch list. Whatever a run does
about such a node succeeds.
-/

namespace Conductor

/-- Whether a node can go on with what is reported of it: it can be merged, and selects nothing or a branch list. -/
def Node.canTake (n : Node) : Reported → Bool
  | .value _ => false
  | .result r => r.payload.isMergeable && match r.path with
    | .atom .null => true
    | path => match Template.keyOf path with
      | .ok key => match n.route? key with
        | some (_, .list _) => true
        | _ => false
      | .error _ => false

theorem Node.selects_of_canTake {n : Node} {r : Result} (takes : n.canTake (.result r)) :
    r.path = .atom .null ∨ ∃ declared inner, n.Selects r declared inner := by
  obtain ⟨-, takes⟩ := Bool.and_eq_true_iff.mp takes
  split at takes
  · rename_i null
    exact .inl null
  · rename_i some
    split at takes
    · rename_i key keyed
      split at takes
      · rename_i declared inner route
        exact .inr ⟨declared, inner, some, key, keyed, route⟩
      · cases takes
    · cases takes

theorem Heap.merge_of_isMergeable {v : Value} (mergeable : v.isMergeable) (h : Heap) (target : DictRef) :
    ∃ h', h.merge target v = .ok h' := by
  cases v with
  | atom a =>
    cases a with
    | null => exact ⟨h, rfl⟩
    | _ => cases mergeable
  | dict d => exact ⟨_, rfl⟩
  | proxy entries => exact ⟨_, rfl⟩
  | _ => cases mergeable

namespace World

variable {plan : Plan} {w w' w₁ w₂ : World} {run : RunId} {n : Node} {r : Result} {call : Call} {t f : FutureId}
  {stack : List Frame} {body : Option FutureId} {x : Happening} {policy : Policy} {a : Except Raised Returned}

def answer (plan : Plan) (run : RunId) (node : Node) (policy : Policy) (w : World) : Except Raised Returned × World :=
  let (c, w) := w.newCompletion (descriptor plan node policy)
  (w.beginNode plan run node).callAction plan run node (.completion policy c)
    (plan.tree.actionFor node).acceptsCompletion

/-- Whether an action of a run does its part if a step calls it, and the descriptor of a member answers if a step
asks it for the report. -/
def isDutiful (plan : Plan) (run : RunId) (w w' : World) : Bool :=
  match w.focus with
  | .enter _ (.sequential other n) _ => other != run || match w.answer plan other n .sequential with
    | (.ok (.plain _), w₁) => match w₁.collectReport w.completions.size with
      | (.ok x, _) => n.canTake x
      | _ => false
    | _ => false
  | .enter _ (.dispatch other _ _ (.node head outputs :: _) _) _ => other != run ||
    match w.answer plan other ⟨head, outputs⟩ .concurrent with
    | (.ok (.plain _), _) => match (w'.first? w.completions.size).bind w'.settlement? with
      | some (.value (.reported x)) => Node.canTake ⟨head, outputs⟩ x
      | _ => false
    | _ => false
  | .enter _ (.member other call _) _ => other != run || match w.waitedFor call.completion with
    | .ok (some _) => true
    | _ => false
  | _ => true

/-! ### The steps of a dutiful run -/

theorem selected_of_canTake (takes : n.canTake (.result r)) : ∃ x, w.selected n r = .ok x := by
  rcases n.selects_of_canTake takes with null | ⟨declared, inner, some, key, keyed, route⟩
  · exact ⟨none, by rw [selected, null]⟩
  · have routes : n.routes.isEmpty = false := by
      cases none : n.routes with
      | nil => simp [Node.route?, none] at route
      | cons _ _ => rfl
    unfold selected
    split
    · rename_i null
      exact (some null).elim
    · exact ⟨_, by simp only [routes, keyed, route, bind, Except.bind]; rfl⟩

/-- Whether a step tells nothing of a run but calls and completions, and goes on to the branch of a node only with
what that can take. -/
structure Clean (run : RunId) (w w' : World) : Prop where
  noted : ∀ x, (run, x) ∈ w'.notes → (run, x) ∈ w.notes ∨ x.counts
  follows : ∀ t n r stack, w'.focus = .enter t (.follow run n r) stack → n.canTake (.result r)

theorem Clean.of_left (notes : w'.notes = w.notes) (o : Outcome) : Clean run w (w'.leave t o stack) where
  noted _ member := .inl (notes ▸ member)
  follows _ _ _ _ here := nomatch here

theorem Clean.after (notes : ∀ x, (run, x) ∈ w₁.notes → (run, x) ∈ w.notes ∨ x.counts)
    (clean : Clean run w₁ w') : Clean run w w' where
  noted x member := (clean.noted x member).elim (notes x) .inr
  follows := clean.follows

theorem complete_of_isMergeable (mergeable : r.payload.isMergeable) (w : World) (plan : Plan) (run : RunId)
    (n : Node) (started : Nat) : ∃ w' payload, w.complete plan run n r started = .ok w' ∧
      w'.notes = (run, .completed n.head r payload) :: w.notes := by
  obtain ⟨heap, merged⟩ := Heap.merge_of_isMergeable mergeable w.heap (w.argsOf run)
  unfold complete
  rw [merged]
  exact ⟨_, _, rfl, by split <;> rfl⟩

theorem finishCall_clean (takes : call.node.canTake (.result r)) :
    Clean run w (w.finishCall plan run call (.result r) body t stack) := by
  have mergeable := (Bool.and_eq_true_iff.mp takes).1
  obtain ⟨w₁, payload, done, notes⟩ := complete_of_isMergeable mergeable w plan run call.node call.started
  have report : w.completeReport plan run call (.result r) = .ok (r, w₁) := by
    simp [completeReport, resultOf, done, bind, Except.bind, pure, Except.pure]
  rw [finishCall, report]
  refine ⟨fun x member => ?_, fun _ _ _ _ here => ?_⟩
  · have there : (run, x) ∈ w₁.notes := member
    rw [notes] at there
    rcases List.mem_cons.mp there with now | before
    · exact .inr ((Prod.mk.inj now).2 ▸ rfl)
    · exact .inl before
  · obtain ⟨-, routine, -⟩ := Focus.enter.inj here
    obtain ⟨-, rfl, rfl⟩ := Routine.follow.inj routine
    exact takes

theorem collectCall_clean (collected : w.collectReport call.completion = (.ok (.result r), w₁))
    (takes : call.node.canTake (.result r)) : Clean run w (w.collectCall plan run call t stack) := by
  have notes : w₁.notes = w.notes := by
    have effect := collectReport_effect (w := w) call.completion
    rw [collected] at effect
    exact effect.noted
  rw [collectCall, collected]
  dsimp only
  split
  · exact .of_left notes _
  · exact .after (fun x member => .inl (notes ▸ member)) (finishCall_clean takes)

theorem noted_answer (answered : w.answer plan run n policy = (a, w₁)) (member : (run, x) ∈ w₁.notes) :
    (run, x) ∈ w.notes ∨ x.counts := by
  obtain ⟨u, v, before, after, played, same⟩ : ∃ u v, u = (calling plan run n policy w).1 ∧
      v = (calling plan run n policy w).2 ∧ SameRuns u v ∧ v = w₁ :=
    ⟨_, _, rfl, rfl, calling_played policy, congrArg Prod.snd answered⟩
  subst same
  rw [notes_congr played.journal, before] at member
  have quiet := (Effect.described (w := w) (descriptor plan n policy)).trans (beginNode_effect plan run n)
  rcases List.mem_cons.mp member with now | earlier
  · exact .inr ((Prod.mk.inj now).2 ▸ rfl)
  · have notes : (beginNode plan run n (w.newCompletion (descriptor plan n policy)).2).notes = w.notes := quiet.noted
    exact .inl (notes ▸ earlier)

theorem notes_chainPlain (explicit : Bool) : (w.chainPlain run call explicit).2.notes = w.notes := by
  unfold chainPlain
  split
  · exact notes_congr (newTask_sameRuns _).journal
  · exact (notes_congr (newTask_sameRuns _).journal).trans (Effect.record call.completion (.result {})).noted

section

variable (dutiful : isDutiful plan run w w')
include dutiful

theorem enterSequential_clean (here : w.focus = .enter t (.sequential run n) stack) :
    Clean run w (w.enterSequential plan run n t stack) := by
  rw [isDutiful, here] at dutiful
  simp only [bne_self_eq_false, Bool.false_or] at dutiful
  split at dutiful
  · rename_i type w₁ answered
    split at dutiful
    · rename_i x w₂ collected
      cases x with
      | value _ => cases dutiful
      | result r =>
        have entered : ∃ started, w.enterSequential plan run n t stack =
            w₁.collectCall plan run ⟨n, w.completions.size, started⟩ t stack := by
          unfold answer at answered
          unfold enterSequential
          dsimp only at answered ⊢
          exact ⟨_, by rw [answered]; rfl⟩
        obtain ⟨started, entered⟩ := entered
        rw [entered]
        exact .after (fun x => noted_answer answered) (collectCall_clean collected dutiful)
    · cases dutiful
  · cases dutiful

theorem enterDispatch_clean {place : Path} {position : Nat} {rest : List Entry} {chains : List FutureId}
    (here : w.focus = .enter t (.dispatch run place position (n.entry :: rest) chains) stack) :
    Clean run w (w.enterRoutine plan t stack (.dispatch run place position (n.entry :: rest) chains)) := by
  rw [isDutiful, here] at dutiful
  obtain ⟨head, outputs⟩ := n
  simp only [Node.entry, bne_self_eq_false, Bool.false_or] at dutiful
  split at dutiful
  · rename_i type w₁ answered
    have dispatched : ∃ started, w.dispatchMember plan run ⟨head, outputs⟩ = (fun made => (.ok made.1, made.2))
        (w₁.chainPlain run ⟨⟨head, outputs⟩, w.completions.size, started⟩
          (plan.tree.actionFor ⟨head, outputs⟩).acceptsCompletion) := by
      unfold answer at answered
      unfold dispatchMember
      dsimp only at answered ⊢
      exact ⟨_, by rw [answered]; rfl⟩
    obtain ⟨started, dispatched⟩ := dispatched
    rw [Node.entry, enterRoutine, dispatched]
    refine ⟨fun x member => ?_, fun _ _ _ _ there => Routine.noConfusion (Focus.enter.inj there).2.1⟩
    exact noted_answer answered (notes_chainPlain _ ▸ member)
  · cases dutiful

theorem enterMember_clean (here : w.focus = .enter t (.member run call body) stack) :
    Clean run w (w.enterRoutine plan t stack (.member run call body)) := by
  rw [isDutiful, here] at dutiful
  simp only [bne_self_eq_false, Bool.false_or] at dutiful
  split at dutiful
  · rename_i f waits
    rw [enterRoutine, waits]
    exact ⟨fun _ member => .inl member, fun _ _ _ _ there => nomatch there⟩
  · cases dutiful

/-- A member that a step calls has reported something that its node can take. -/
theorem reported_of_isDutiful {place : Path} {position : Nat} {rest : List Entry} {chains : List FutureId}
    (here : w.focus = .enter t (.dispatch run place position (n.entry :: rest) chains) stack)
    (report : w'.first? w.completions.size = some f) :
    ∃ x, w'.settlement? f = some (.value (.reported x)) ∧ n.canTake x := by
  rw [isDutiful, here] at dutiful
  simp only [Node.entry, bne_self_eq_false, Bool.false_or, report, Option.bind_some] at dutiful
  split at dutiful
  · split at dutiful
    · exact ⟨_, ‹_›, dutiful⟩
    · cases dutiful
  · cases dutiful

end

theorem enterFollow_clean (takes : n.canTake (.result r)) :
    Clean run w (w.enterRoutine plan t stack (.follow run n r)) := by
  obtain ⟨x, found⟩ := selected_of_canTake (w := w) takes
  rw [enterRoutine, found]
  cases x with
  | none => exact .of_left rfl _
  | some x => exact ⟨fun _ member => .inl member, fun _ _ _ _ there => nomatch there⟩

theorem resumeCompleting_clean {x : Conductor.Reported} (takes : call.node.canTake x) :
    Clean run w (w.resumeFrame plan t stack (.reported x) (.completing run call body)) := by
  cases x with
  | value _ => cases takes
  | result r =>
    rw [resumeFrame]
    split
    · have notes : (w.log (.discardedResult call.node.name)).notes = w.notes := rfl
      exact .of_left notes _
    · exact finishCall_clean takes

end World

end Conductor
