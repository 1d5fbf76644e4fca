import Conductor.Proofs.Lineup
import Conductor.Proofs.Rejections

/-!
# Runs that go on smoothly

When all actions of a run do their part in their calls, the run never begins anything to wait for, no node of it
fails, and whatever is reported of a node is merged and followed.
-/

namespace Conductor.World

variable {plan : Plan} {w w' : World} {run other : RunId} {t u : FutureId} {call : Call} {body : Option FutureId}
  {notes pre : List Note} {tasks : List (FutureId × Routine)} {focus next : Focus} {n : Node} {r : Result}
  {aim : FutureId → Aim} {stack rest : List Frame} {a goal : Aim} {o : Outcome} {h : Head} {e : Raised}

/-- Whether nothing is to be waited for in a run, no node has failed, and what is reported of a node can be taken. -/
structure Smooth (run : RunId) (w : World) : Prop where
  unbegun : ∀ h body, (run, .began h body) ∉ w.notes
  unfailed : ∀ h e, (run, .failed h e) ∉ w.notes
  reporting : ∀ t o call body stack, w.focus = .leave t o (.completing run call body :: stack) →
    ∃ x, o = .ok (.reported x) ∧ call.node.canTake x
  following : ∀ t n r stack, w.focus = .enter t (.follow run n r) stack → n.canTake (.result r)

/-! ### What members are told -/

theorem Finished.leaves (finished : Finished plan run call body pre t stack w notes w' next)
    (left : next = .leave u o rest) : u = t ∧ rest = stack := by
  cases finished with
  | lost lost =>
    obtain ⟨_, there⟩ := lost.leaves
    obtain ⟨rfl, -, rfl⟩ := Focus.leave.inj (left.symm.trans there)
    exact ⟨rfl, rfl⟩
  | moot _ _ =>
    obtain ⟨rfl, -, rfl⟩ := Focus.leave.inj left
    exact ⟨rfl, rfl⟩
  | followed _ _ _ _ => cases left

/-- An act that ends a routine or a frame goes on with the stack below it. -/
theorem Act.leaves (act : Act plan w focus notes tasks w' (.leave t o stack)) :
    (∃ r, focus = .enter t r stack) ∨ ∃ o' frame, focus = .leave t o' (frame :: stack) := by
  generalize left : Focus.leave t o stack = next at act
  have played {u : FutureId} {rest : List Frame} (plays : Plays w' u rest next) : u = t ∧ rest = stack := by
    subst left
    cases plays
    exact ⟨rfl, rfl⟩
  have lost {run : RunId} {h : Head} {e : Raised} {pre : List Note} {u : FutureId} {rest : List Frame}
      (lost : Lost run h e pre u rest w notes w' next) : u = t ∧ rest = stack := by
    obtain ⟨_, there⟩ := lost.leaves
    obtain ⟨rfl, -, rfl⟩ := Focus.leave.inj (left.trans there)
    exact ⟨rfl, rfl⟩
  cases act with
  | played _ _ _ plays =>
    obtain ⟨rfl, rfl⟩ := played plays
    exact .inl ⟨_, rfl⟩
  | replayed _ _ plays =>
    obtain ⟨rfl, rfl⟩ := played plays
    exact .inr ⟨_, _, rfl⟩
  | sequenced _ _ finished =>
    obtain ⟨rfl, rfl⟩ := finished.leaves left.symm
    exact .inl ⟨_, rfl⟩
  | returned finished | completed finished _ =>
    obtain ⟨rfl, rfl⟩ := finished.leaves left.symm
    exact .inr ⟨_, _, rfl⟩
  | undispatched _ gone | unasked gone _ =>
    obtain ⟨rfl, rfl⟩ := lost gone
    exact .inl ⟨_, rfl⟩
  | unreturned gone | uncompleted gone =>
    obtain ⟨rfl, rfl⟩ := lost gone
    exact .inr ⟨_, _, rfl⟩
  | delivered _ | exhausted | skipped _ | absent _ | missed _ _ _ | unrouted _ =>
    obtain ⟨rfl, -, rfl⟩ := Focus.leave.inj left
    exact .inl ⟨_, rfl⟩
  | resolved _ _ _ _ | gathered | followed | finished | rejected _ | unfollowed _ | unfinished _ | abandoned
  | ungathered =>
    obtain ⟨rfl, -, rfl⟩ := Focus.leave.inj left
    exact .inr ⟨_, _, rfl⟩
  | _ => cases left

theorem Fits.success_of_completing (fits : Fits plan aim w goal a (.completing run call body :: stack)) :
    ∃ f, a = .success f ∧ w.first? call.completion = some f := by
  cases fits with
  | played own _ => cases own
  | completing _ report _ => exact ⟨_, rfl, report⟩

/-- A member is told what the future has settled with that it has waited for. -/
theorem Ordered.delivered (ordered : Ordered plan aim w)
    (act : Act plan w w.focus notes tasks w' (.leave t o (.completing run call body :: stack))) :
    ∃ f s, w.focus = .enter t (.wait f) (.completing run call body :: stack) ∧
      w.first? call.completion = some f ∧ w.settlement? f = some s ∧ o = (w.deliver s).1 := by
  have focused := ordered.focus
  rcases act.leaves with ⟨r, here⟩ | ⟨o', frame, here⟩
  · rw [here] at focused act
    obtain ⟨a, opens, fits⟩ := focused
    obtain ⟨f, rfl, report⟩ := fits.success_of_completing
    cases opens with
    | wait f =>
      cases act with
      | delivered settled => exact ⟨f, _, here, report, settled, rfl⟩
      | played _ other _ _ => exact absurd rfl (other f)
    | branches _ spans => cases spans
  · -- whatever stands on the frame has another aim
    rw [here] at focused
    obtain ⟨a, -, fits⟩ := focused
    have apart {a : Aim} (fits : Fits plan aim w (aim t) a (.completing run call body :: stack))
        (other : ∀ f, a ≠ .success f) : False := by
      obtain ⟨f, same, -⟩ := fits.success_of_completing
      exact other f same
    cases fits with
    | branches _ spans rest =>
      refine (apart rest fun f same => ?_).elim
      subst same
      cases spans
    | played _ rest | drive _ rest | inside _ _ _ _ rest | outside _ _ _ _ _ _ _ rest | joining _ _ rest
      | completing _ _ rest | following _ _ _ rest | ending _ _ _ _ _ _ rest =>
      exact (apart rest (by simp)).elim

/-! ### What dutiful steps tell -/

theorem Smooth.not_returning (smooth : Smooth run w) (ordered : Ordered plan aim w) :
    w.focus ≠ .leave t o (.returning run call :: stack) := by
  intro here
  obtain ⟨a, -, fits⟩ := ordered.left here
  cases fits with
  | played own _ => cases own
  | inside _ _ begun _ _ => exact smooth.unbegun _ _ begun
  | outside _ _ begun _ _ _ _ _ => exact smooth.unbegun _ _ begun

section

variable (stepped : w.step plan = some w')
include stepped

theorem Smooth.clean_of_completing (smooth : Smooth run w)
    (here : w.focus = .leave t o (.completing run call body :: stack)) : Clean run w w' := by
  obtain ⟨x, rfl, takes⟩ := smooth.reporting _ _ _ _ _ here
  rw [step, here] at stepped
  obtain rfl := Option.some.inj stepped
  exact resumeCompleting_clean takes

variable (dutiful : isDutiful plan run w w')
include dutiful

/-- A dutiful step that calls an action tells nothing but that, and the completion if there is one. -/
theorem clean_of_calls (calls : Calls run n w.focus) : Clean run w w' := by
  generalize here : w.focus = focus at calls
  rw [step, here] at stepped
  cases calls with
  | sequential =>
    obtain rfl := Option.some.inj stepped
    exact enterSequential_clean dutiful here
  | dispatch =>
    obtain rfl := Option.some.inj stepped
    exact enterDispatch_clean dutiful here

namespace Smooth

variable (smooth : Smooth run w) (ordered : Ordered plan aim w)
include smooth ordered

theorem clean_of_reports (reports : Reports run call body w.focus) : Clean run w w' := by
  generalize here : w.focus = focus at reports
  cases reports with
  | sequential =>
    have calls : Calls run call.node w.focus := here ▸ Calls.sequential
    exact clean_of_calls stepped dutiful calls
  | returning => exact (smooth.not_returning ordered here).elim
  | completing => exact smooth.clean_of_completing stepped here

theorem clean_of_fails {v : World} (fails : Fails plan w run h e w.focus notes v next) : Clean run w w' := by
  cases fails with
  | lost loses _ =>
    generalize here : w.focus = focus at loses
    cases loses with
    | sequential n _ =>
      have calls : Calls run n w.focus := here ▸ Calls.sequential
      exact clean_of_calls stepped dutiful calls
    | dispatch n _ =>
      have calls : Calls run n w.focus := here ▸ Calls.dispatch
      exact clean_of_calls stepped dutiful calls
    | member call body =>
      rw [step, here] at stepped
      obtain rfl := Option.some.inj stepped
      exact enterMember_clean dutiful here
    | returning call o _ => exact (smooth.not_returning ordered here).elim
    | completing call body o => exact smooth.clean_of_completing stepped here
  | missed _ _ here _ _ =>
    have takes := smooth.following _ _ _ _ here
    rw [step, here] at stepped
    obtain rfl := Option.some.inj stepped
    exact enterFollow_clean takes

end Smooth

end

/-! ### Smooth runs -/

namespace Smooth

variable (smooth : Smooth run w) (m : Move plan w w') (reached : Reachable plan w)
  (dutiful : w.step plan = some w' → isDutiful plan run w w')
include smooth m reached dutiful

theorem unbegun_move (h : Head) (body : Option FutureId) : (run, .began h body) ∉ w'.notes := by
  intro began
  rcases m.outside with stepped | ⟨-, notes, -⟩
  · obtain ⟨notes, noting⟩ := m.noting reached.sound
    rw [noting.noted] at began
    rcases List.mem_append.mp began with new | old
    · cases noting.happens new with
      | began n _ calls _ _ =>
        have clean := clean_of_calls stepped (dutiful stepped) calls
        rcases clean.noted _ (noting.noted ▸ List.mem_append_left _ new) with old | counts
        · exact smooth.unbegun _ _ old
        · cases counts
    · exact smooth.unbegun h body old
  · exact smooth.unbegun h body (notes ▸ began)

theorem unfailed_move (ordered : Ordered plan aim w) (h : Head) (e : Raised) : (run, .failed h e) ∉ w'.notes := by
  intro failed
  rcases m.outside with stepped | ⟨-, notes, -⟩
  · obtain ⟨notes, noting⟩ := m.noting reached.sound
    have noted := noting.noted
    rw [noted] at failed
    rcases List.mem_append.mp failed with new | old
    · cases noting with
      | acted act =>
        have clean := smooth.clean_of_fails stepped (dutiful stepped) ordered (act.fails new)
        rcases clean.noted _ (noted ▸ List.mem_append_left _ new) with old | counts
        · exact smooth.unfailed _ _ old
        · cases counts
      | quiet _ => cases new
      | @told other node c explicit b _ _ _ idle next ends _ =>
        -- nothing that was begun can have ended
        obtain ⟨x, began⟩ := reached.awaits ⟨_, _, _, mem_jobs_of_next next⟩
        cases ends with
        | quiet _ _ => cases new
        | doomed _ _ _ => cases new
        | unheard _ _ => cases (Prod.mk.inj (List.mem_singleton.mp new)).2
        | rejecting _ only _ _ _ =>
          rcases List.mem_append.mp new with rejection | failure
          · obtain ⟨_, _, same⟩ := only _ rejection
            cases same
          · obtain ⟨rfl, -⟩ := Prod.mk.inj (List.mem_singleton.mp failure)
            exact smooth.unbegun _ _ began
    · exact smooth.unfailed h e old
  · exact smooth.unfailed h e (notes ▸ failed)

omit dutiful in
theorem reporting_move (ordered : Ordered plan aim w) (forthcoming : w.Forthcoming run)
    (here : w'.focus = .leave t o (.completing run call body :: stack)) :
    ∃ x, o = .ok (.reported x) ∧ call.node.canTake x := by
  cases m.turn reached.sound with
  | @acted _ _ w₁ next act _ =>
    obtain rfl : next = .leave t o (.completing run call body :: stack) := here
    obtain ⟨f, s, waits, report, settled, rfl⟩ := ordered.delivered act
    obtain ⟨x, value, takes⟩ := forthcoming.asked call t (.waits waits) f report
    obtain rfl := Option.some.inj (settled.symm.trans value)
    exact ⟨x, rfl, takes⟩
  | halted _ _ _ _ idle => cases idle.symm.trans here
  | ended _ _ _ idle => cases idle.symm.trans here
  | resumed _ stood _ _ _ goesOn _ _ =>
    obtain ⟨_, -, ⟨_, -, focus⟩ | ⟨_, -, focus⟩⟩ | ⟨_, rfl, focus⟩ := goesOn
    · cases focus.symm.trans here
    · cases focus.symm.trans here
    · obtain ⟨-, -, rfl⟩ := Focus.leave.inj (focus.symm.trans here)
      exact (forthcoming.unparked _ _ _ _ _ stood).elim
  | begun r _ => exact smooth.reporting _ _ _ _ _ ((newTask_sameRuns r).focus.symm.trans here)
  | rested _ focus => exact smooth.reporting _ _ _ _ _ (focus.symm.trans here)

theorem following_move (ordered : Ordered plan aim w) (here : w'.focus = .enter t (.follow run n r) stack) :
    n.canTake (.result r) := by
  rcases m.outside with stepped | ⟨focus, -, -⟩
  · obtain ⟨_, _, _, act, -⟩ | old | ⟨_, -, stood⟩ := m.entered reached.sound here
    · obtain ⟨call, body, _, rfl, -, reports⟩ := act.branch rfl
      exact (smooth.clean_of_reports stepped (dutiful stepped) ordered reports).follows _ _ _ _ here
    · exact smooth.following _ _ _ _ old
    · -- no task begins with a branch
      have begins := reached.sound.tasks.begins _ _ _ stood
      cases begins
  · exact smooth.following _ _ _ _ (focus.symm.trans here)

theorem move (ordered : Ordered plan aim w) (forthcoming : w.Forthcoming run) : Smooth run w' :=
  ⟨smooth.unbegun_move m reached dutiful, smooth.unfailed_move m reached dutiful ordered,
    fun _ _ _ _ _ => smooth.reporting_move m reached ordered forthcoming,
    fun _ _ _ _ => smooth.following_move m reached dutiful ordered⟩

end Smooth

theorem Launch.smooth (launch : Launch run w w') (before : Reachable plan w) (compiled : plan.tree.Compiled)
    (new : w.record? run = none) (sound : w'.Sound) (loyal : Loyal aim w') : Smooth run w' := by
  have working {t : FutureId} (busy : w'.focus.task? = some t) (concerns : w'.focus.Concerns run) : False := by
    cases launch.begins loyal (loyal.focus t run busy concerns) (sound.tasks.focus t busy).2
  have unknown {h : Head} {args : Entries} (called : (run, .called h args) ∈ w.notes) : False := by
    have known := before.known called
    rw [new] at known
    cases known
  refine ⟨fun h body began => ?_, fun h e failed => ?_, fun t o call body stack here => ?_,
    fun t n r stack here => ?_⟩
  · obtain ⟨args, called⟩ := before.begun (launch.noted ▸ began)
    exact unknown called
  · rw [launch.noted] at failed
    cases before.spoiled compiled failed with
    | rejected rejected =>
      rw [status, new] at rejected
      cases rejected
    | dropped called _ => exact unknown called
    | falling called _ _ _ => exact unknown called
  · exact (working (t := t) (by rw [here]; rfl) (by rw [here]; exact ⟨_, List.mem_cons_self, rfl⟩)).elim
  · exact (working (t := t) (by rw [here]; rfl) (by rw [here]; exact .inl rfl)).elim

end Conductor.World
