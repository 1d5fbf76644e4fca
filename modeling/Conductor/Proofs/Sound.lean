import Conductor.Proofs.Joints

/-!
# Sound states

Every reachable state is one from which a step can be trusted. What a step relies on is kept by every
move, together with the order of lanes, the roles of futures, and what tasks and joint futures wait
for.
-/

namespace Conductor

/-- Whether a routine belongs to a run that must not have settled. -/
def Routine.isGuarded : Routine → Bool
  | .sequential _ _ | .dispatch _ _ _ _ _ => true
  | _ => false

def Focus.isGuarded : Focus → Bool
  | .enter _ r _ => r.isGuarded
  | _ => false

namespace World

variable {w w' : World} {f : FutureId} {s : Settlement} {j : Job} {notes : List Note}
  {tasks : List (FutureId × Routine)} {plan : Plan}

/-! ### Proper settlements -/

structure AllProper (w : World) : Prop where
  settlements : ∀ f s, w.settlement? f = some s → s.Proper
  outcome : w.focus.Proper

namespace AllProper

theorem same (h : AllProper w) (settlements : ∀ f, w'.settlement? f = w.settlement? f)
    (focus : w'.focus = w.focus) : AllProper w' :=
  ⟨fun f s own => h.settlements f s ((settlements f).symm.trans own), focus ▸ h.outcome⟩

theorem settle (h : AllProper w) (proper : s.Proper) : AllProper (w.settle f s) := by
  refine ⟨fun g s' own => ?_, (settle_sameRuns (w := w) (f := f) (s := s)).focus ▸ h.outcome⟩
  rcases settlement?_settle (w := w) (f := f) (s := s) g with same | ⟨-, -, new⟩
  · exact h.settlements g s' (same.symm.trans own)
  · obtain rfl := Option.some.inj (new.symm.trans own)
    exact proper

theorem focusOn (h : AllProper w) {focus : Focus} (proper : focus.Proper) :
    AllProper (w.focusOn focus) :=
  ⟨h.settlements, proper⟩

theorem scripted (h : AllProper w) (done : Scripted w w') : AllProper w' := by
  induction done with
  | aside same futures _ _ => exact h.same (fun f => settlement?_congr futures) same.focus
  | reported _ _ _ => exact h.settle trivial
  | postponed _ _ _ => exact h.same (fun _ => rfl) rfl
  | queued _ _ => exact h.same (fun _ => settlement?_post _) (post_sameRuns _).focus
  | made => exact h.same (fun _ => settlement?_newFuture _) rfl
  | timed _ _ => exact h.same (fun _ => settlement?_newFuture (.plain .timed)) rfl
  | settled s proper same futures _ =>
    refine settle ?_ proper
    refine h.same (fun f => ?_) same.focus
    exact (settlement?_congr futures).trans (settlement?_newFuture _)
  | trans _ _ ih ih' => exact ih' (ih h)

theorem newCompletion (h : AllProper w) (d : Descriptor) : AllProper (w.newCompletion d).2 := by
  obtain ⟨r, -, same⟩ | same := newCompletion_cases (w := w) (d := d) <;> rw [same]
  · exact h.same (fun _ => rfl) rfl
  · exact h.same (fun _ => settlement?_newFuture (.plain .report)) rfl

theorem newJoint (h : AllProper w) (chains : List FutureId) : AllProper (w.newJoint chains).2 := by
  have registered (l : List FutureId) (w : World) (h : AllProper w) (g : FutureId) :
      AllProper (l.foldl (fun w child => w.onSettled child (.childEnded g child)) w) := by
    induction l generalizing w with
    | nil => exact h
    | cons c rest ih =>
      exact ih _ (h.same (fun _ => settlement?_onSettled) onSettled_sameRuns.focus)
  have made : AllProper (w.newFuture (.joint chains 0 false)).2 :=
    h.same (fun _ => settlement?_newFuture _) rfl
  unfold World.newJoint
  dsimp only
  split
  · exact made.settle trivial
  · exact registered chains _ made _

theorem verdict {run : RunId} {status : Status} (h : status.Verdict run s) : s.Proper := by
  cases status with
  | running => exact h.elim
  | resolved ms =>
    obtain rfl := h
    trivial
  | rejected ms e =>
    obtain ⟨rfl, proper⟩ := h
    exact proper

theorem effect (h : AllProper w) (e : Effect notes tasks w w') : AllProper w' := by
  induction e with
  | kept d => exact h.same (fun _ => settlement?_congr d.loop.futures) d.loop.focus
  | scripted done => exact h.scripted done
  | described d => exact h.newCompletion d
  | recorded _ _ _ => exact h.same (fun _ => settlement?_newFuture (.plain _)) rfl
  | tasked r _ => exact h.same (fun _ => settlement?_newTask r) (newTask_sameRuns r).focus
  | watched _ _ _ _ _ => exact h.same (fun _ => settlement?_onSettled) onSettled_sameRuns.focus
  | joined _ _ => exact h.newJoint _
  | waited _ =>
    exact h.same (fun _ => settlement?_onSettled.trans (settlement?_newFuture _))
      onSettled_sameRuns.focus
  | concluded _ _ decided =>
    exact (h.same (fun _ => rfl) rfl : AllProper (setStatus _ _ _)).settle (verdict decided)
  | failed _ _ _ proper => exact h.settle proper
  | trans _ _ ih ih' => exact ih' (ih h)

theorem setPosition (h : AllProper w) (t : FutureId) (p : Position) (waiting : Option FutureId) :
    AllProper (w.setPosition t p waiting) :=
  h.same (fun _ => settlement?_setPosition p waiting) (setPosition_sameRuns p waiting).focus

theorem endTask (h : AllProper w) {t : FutureId} {o : Outcome} (proper : Outcome.Proper o) :
    AllProper (w.endTask t o) := by
  obtain ⟨s, same, fine, -⟩ := endTask_cases (w := w) t o
  rw [same]
  exact ((h.setPosition t _ _).settle (fine proper)).focusOn trivial

theorem handover (h : AllProper w) (past : Handover w w') : AllProper w' := by
  cases past with
  | focused f _ _ proper => exact h.focusOn proper
  | suspended _ _ =>
    refine focusOn (w := (w.setPosition _ _ _).onSettled _ _) ?_ trivial
    exact (h.setPosition _ _ _).same (fun _ => settlement?_onSettled) onSettled_sameRuns.focus
  | yielded _ =>
    refine focusOn ?_ trivial
    exact (h.setPosition _ _ _).same (fun _ => settlement?_post _) (post_sameRuns _).focus
  | ended busy =>
    have proper := h.outcome
    rw [busy] at proper
    exact h.endTask proper

theorem resumeTask (h : AllProper w) (t : FutureId) {o : Outcome} (proper : Outcome.Proper o) :
    AllProper (w.resumeTask t o) := by
  obtain same | ⟨p, waiting, m, f, n, o', -, -, kind, same, goesOn⟩ :=
    resumeTask_cases (w := w) t o <;> rw [same]
  · exact h
  · have fine : Outcome.Proper o' := by
      rcases kind with rfl | ⟨e, rfl, nature⟩
      · exact proper
      · exact proper_error (by simp [nature])
    refine focusOn ?_ ?_
    · exact h.same (fun _ => settlement?_repurpose (w := w)) rfl
    · rcases goesOn with ⟨r, -, ⟨v, -, rfl⟩ | ⟨e, rfl, rfl⟩⟩ | ⟨stack, -, rfl⟩
      · trivial
      · exact fine
      · exact fine

theorem childEnded (h : AllProper w) (g c : FutureId) : AllProper (w.childEnded g c) := by
  obtain same | ⟨children, ended, requested, s, n, own, -, result⟩ := childEnded_cases (w := w) g c
  · rw [same]
    exact h
  · have counted : AllProper (w.repurpose g (.joint children (ended + 1) requested)) :=
      h.same (fun _ => settlement?_repurpose) rfl
    obtain ⟨same, -⟩ | ⟨s', same, proper, -⟩ := result _ rfl <;> rw [same]
    · exact counted
    · have raised : AllProper ((w.repurpose g (.joint children (ended + 1) requested)).raisedTo n) :=
        counted.same (fun _ => rfl) rfl
      exact raised.settle (proper (h.settlements c s own))

theorem handled (h : AllProper w) (rest : Handled j w w') : AllProper w' := by
  cases rest with
  | effect e _ => exact h.effect e
  | resumed => exact h.resumeTask _ (proper_ok _)
  | woken settled =>
    exact (h.effect (.deliver _)).resumeTask _ (deliver_proper (h.settlements _ _ settled))
  | counted => exact h.childEnded _ _
  | freed => exact h.settle trivial
  | matured n proper => exact (h.same (fun _ => rfl) rfl : AllProper (w.raisedTo n)).settle proper
  | stopped => exact h.same (fun _ => rfl) rfl

theorem change (h : AllProper w) (c : Change w w') : AllProper w' := by
  cases c with
  | worked e past => exact (h.effect e).handover past
  | handled _ next rest =>
    have taken := h.same (fun _ => settlement?_congr (nextJob_futures next)) (nextJob_sameRuns next).focus
    exact taken.handled rest
  | turned _ next =>
    obtain ⟨_, -, rfl⟩ := nextTurn_cases next
    exact h.same (fun _ => rfl) rfl

theorem interrupted (h : AllProper w) (i : Interrupted w w') : AllProper w' := by
  induction i with
  | refl _ => exact h
  | settled _ => exact h.settle fun e same => nomatch same
  | asked _ => exact h.same (fun _ => settlement?_repurpose) rfl
  | told _ => exact h.same (fun _ => settlement?_repurpose) rfl
  | trans _ _ ih ih' => exact ih' (ih h)

theorem fresh (h : w.Fresh) : AllProper w := by
  refine ⟨fun f s own => ?_, h.focus ▸ trivial⟩
  simp [settlement?, future?, h.futures] at own

theorem move (h : AllProper w) (steady : w.Steady) (m : Move plan w w') : AllProper w' := by
  cases m with
  | stepped stepped => exact h.change (step_change steady stepped)
  | supplied _ => exact h.same (fun _ => rfl) rfl
  | called r _ => exact h.same (fun _ => settlement?_newTask r) (newTask_sameRuns r).focus
  | observed _ => exact h.same (fun _ => settlement?_onSettled) onSettled_sameRuns.focus
  | cleared => exact h.same (fun _ => rfl) rfl
  | cancelled f => exact h.interrupted (cancel_interrupted f)
  | turned => exact h.same (fun _ => rfl) rfl
  | opened _ _ _ _ => exact h.same (fun _ => rfl) rfl
  | closed _ => exact h.same (fun _ => rfl) rfl

end AllProper

/-! ### Guarded routines -/

structure Poised (w : World) : Prop where
  sequential : ∀ t run node stack, w.focus = .enter t (.sequential run node) stack →
    w.isSettled run = false
  dispatch : ∀ t run place position members chains stack,
    w.focus = .enter t (.dispatch run place position members chains) stack →
      w.isSettled run = false ∧ chains.Nodup ∧ ∀ c ∈ chains, c < w.futures.size

variable {t : FutureId} {stack : List Frame} {run : RunId} {node : Node} {call : Call} {e : Raised}
  {next : Focus}

namespace Poised

theorem of_unguarded (h : w.focus.isGuarded = false) : Poised w := by
  refine ⟨fun t run node stack busy => ?_, fun t run place position members chains stack busy => ?_⟩
  · rw [busy] at h
    cases h
  · rw [busy] at h
    cases h

theorem same (h : Poised w) (focus : w'.focus = w.focus) (records : w'.records = w.records)
    (size : w.futures.size ≤ w'.futures.size) : Poised w' := by
  refine ⟨fun t run node stack busy => ?_, fun t run place position members chains stack busy => ?_⟩
  · exact (isSettled_congr records run).trans (h.sequential t run node stack (focus ▸ busy))
  · obtain ⟨fresh, distinct, known⟩ := h.dispatch _ _ _ _ _ _ _ (focus ▸ busy)
    exact ⟨(isSettled_congr records run).trans fresh, distinct,
      fun c member => Nat.lt_of_lt_of_le (known c member) size⟩

theorem sequential_enter (fresh : w.isSettled run = false) :
    Poised (w.enter t (.sequential run node) stack) := by
  refine ⟨fun t' run' node' stack' busy => ?_, fun _ _ _ _ _ _ _ busy => nomatch busy⟩
  obtain ⟨-, same, -⟩ := Focus.enter.inj busy
  obtain ⟨rfl, -⟩ := Routine.sequential.inj same
  exact fresh

theorem dispatch_enter {place : Path} {position : Nat} {members : List Entry}
    {chains : List FutureId} (fresh : w.isSettled run = false) (distinct : chains.Nodup)
    (known : ∀ c ∈ chains, c < w.futures.size) :
    Poised (w.enter t (.dispatch run place position members chains) stack) := by
  refine ⟨fun _ _ _ _ busy => (nomatch busy), fun _ run' _ _ _ chains' _ busy => ?_⟩
  obtain ⟨-, same, -⟩ := Focus.enter.inj busy
  obtain ⟨rfl, -, -, -, rfl⟩ := Routine.dispatch.inj same
  exact ⟨fresh, distinct, known⟩

theorem chained {place : Path} {position : Nat} {members : List Entry} {chains : List FutureId}
    {chain : FutureId} (fresh : w'.isSettled run = false) (distinct : chains.Nodup)
    (known : ∀ c ∈ chains, c < w.futures.size) (new : w.futures.size ≤ chain)
    (made : chain < w'.futures.size) :
    Poised (w'.enter t (.dispatch run place position members (chains ++ [chain])) stack) := by
  refine dispatch_enter fresh ?_ fun c member => ?_
  · refine List.nodup_append.mpr ⟨distinct, List.nodup_singleton chain, fun c member d here => ?_⟩
    obtain rfl := List.mem_singleton.mp here
    exact Nat.ne_of_lt (Nat.lt_of_lt_of_le (known c member) new)
  · rcases List.mem_append.mp member with old | here
    · exact Nat.lt_of_lt_of_le (Nat.lt_of_lt_of_le (known c old) new) (Nat.le_of_lt made)
    · obtain rfl := List.mem_singleton.mp here
      exact made

theorem plays (h : Plays w t stack next) : Poised (w.focusOn next) := by
  cases h with
  | left _ => exact of_unguarded rfl
  | entered r _ own _ _ =>
    refine of_unguarded ?_
    change r.isGuarded = false
    cases r <;> simp_all [Routine.run?, Routine.isGuarded]

theorem lost {h : Head} {pre : List Note} (lost : Lost run h e pre t stack w notes w' next) :
    Poised (w'.focusOn next) := by
  cases lost
  exact of_unguarded rfl

theorem finished {body : Option FutureId} {pre : List Note}
    (finished : Finished plan run call body pre t stack w notes w' next) :
    Poised (w'.focusOn next) := by
  cases finished with
  | lost h => exact lost h
  | moot _ _ => exact of_unguarded rfl
  | followed _ _ _ _ => exact of_unguarded rfl

theorem still (effect : Effect notes tasks w w') (quiet : ∀ s, (run, .settled s) ∉ notes)
    (fresh : w.isSettled run = false) : w'.isSettled run = false := by
  rcases effect.status run with same | ⟨-, -, member⟩
  · exact (isSettled_of_status same).trans fresh
  · exact absurd member (quiet _)

theorem act (steady : w.Steady) (act : Act plan w w.focus notes tasks w' next) :
    Poised (w'.focusOn next) := by
  have effect := act.effect
  generalize busy : w.focus = focus at act
  cases act with
  | played _ _ _ h => exact plays h
  | replayed _ _ h => exact plays h
  | single _ fresh => exact sequential_enter fresh
  | grouped fresh => exact dispatch_enter fresh List.nodup_nil (by simp)
  | sequenced _ _ h => exact finished h
  | undispatched _ h => exact lost h
  | @plain t run place position call rest chains stack args w₁ f fresh _ _ =>
    obtain ⟨-, distinct, known⟩ := steady.dispatch _ _ _ _ _ _ _ busy
    obtain ⟨new, made⟩ := effect.made (w₁.futures.size, .member run call none) (by simp)
    exact chained (still effect (by simp) fresh) distinct known new made
  | @watched t run place position call rest chains stack args bodies w₁ f body explicit fresh =>
    obtain ⟨-, distinct, known⟩ := steady.dispatch _ _ _ _ _ _ _ busy
    obtain ⟨new, made⟩ := effect.made (w₁.futures.size, .member run call (some body)) (by simp)
    exact chained (still effect (by simp) fresh) distinct known new made
  | @spawned t run place position inner rest chains stack fresh =>
    obtain ⟨-, distinct, known⟩ := steady.dispatch _ _ _ _ _ _ _ busy
    obtain ⟨new, made⟩ := effect.made (w.futures.size, .branches run (place ++ [.entry position]) 0 inner)
      (by simp)
    exact chained (still effect (by simp) fresh) distinct known new made
  | unasked h => exact lost h
  | returned h => exact finished h
  | completed h => exact finished h
  | unreturned h => exact lost h
  | uncompleted h => exact lost h
  | _ => exact of_unguarded rfl

theorem resumeTask (h : Poised w) (tasks : w.Tasks) (t : FutureId) (o : Outcome) :
    Poised (w.resumeTask t o) := by
  obtain same | ⟨p, waiting, m, f, n, o', -, own, -, same, goesOn⟩ :=
    resumeTask_cases (w := w) t o <;> rw [same]
  · exact h
  · refine of_unguarded ?_
    rcases goesOn with ⟨r, rfl, ⟨v, -, rfl⟩ | ⟨e, -, rfl⟩⟩ | ⟨stack, -, rfl⟩
    · have begins := tasks.begins t r waiting ⟨m, own⟩
      change r.isGuarded = false
      cases r <;> simp_all [Routine.begins, Routine.isGuarded]
    · rfl
    · rfl

theorem handled (h : Poised w) (tasks : w.Tasks) (idle : w.focus = .idle)
    (rest : Handled j w w') : Poised w' := by
  have unguarded {w' : World} (focus : w'.focus = w.focus) : Poised w' := by
    refine of_unguarded ?_
    rw [focus, idle]
    rfl
  cases rest with
  | effect e _ => exact unguarded e.focus
  | resumed => exact h.resumeTask tasks _ _
  | woken _ =>
    rename_i t f s _
    have delivered : Poised (w.deliver s).2 := unguarded (Effect.deliver s).focus
    refine delivered.resumeTask ?_ t _
    refine tasks.keep ?_ (fun _ _ _ => stands_congr (purpose?_congr (deliver_futures s)))
      (congrArg Focus.task? (Effect.deliver s).focus) fun _ _ _ _ => settlement?_congr (deliver_futures s)
    rw [jobs_congr (deliver_futures s) (deliver_agenda s)]
  | @counted g c =>
    obtain same | ⟨children, ended, requested, s, n, -, -, result⟩ := childEnded_cases (w := w) g c
    · rw [same]
      exact h
    · obtain ⟨same, -⟩ | ⟨s', same, -, -⟩ := result _ rfl <;> rw [same]
      · exact unguarded rfl
      · exact unguarded settle_sameRuns.focus
  | freed => exact unguarded settle_sameRuns.focus
  | matured n _ => exact unguarded settle_sameRuns.focus
  | stopped => exact unguarded rfl

theorem step (h : Poised w) (steady : w.Steady) (tasks : w.Tasks)
    (stepped : w.step plan = some w') : Poised w' := by
  cases step_stepped steady stepped with
  | acted a => exact act steady a
  | suspended _ _ => exact of_unguarded rfl
  | yielded _ => exact of_unguarded rfl
  | ended _ => exact of_unguarded rfl
  | handled idle next =>
    have same := nextJob_sameRuns next
    have taken := h.same same.focus same.records (Nat.le_of_eq (nextJob_futures next ▸ rfl))
    exact taken.handled (tasks.nextJob next).1 (same.focus.trans idle) (steady.handled next)
  | turned idle next =>
    obtain ⟨_, -, rfl⟩ := nextTurn_cases next
    exact h.same rfl rfl (Nat.le_refl _)

theorem interrupted (h : Poised w) (i : Interrupted w w') : Poised w' := by
  have size := (Grown.interrupted i).size_le
  have focus : w'.focus = w.focus ∧ w'.records = w.records := by
    clear h size
    induction i with
    | refl _ => exact ⟨rfl, rfl⟩
    | settled _ => exact ⟨settle_sameRuns.focus, settle_sameRuns.records⟩
    | asked _ => exact ⟨rfl, rfl⟩
    | told _ => exact ⟨rfl, rfl⟩
    | trans _ _ ih ih' => exact ⟨ih'.1.trans ih.1, ih'.2.trans ih.2⟩
  exact h.same focus.1 focus.2 size

theorem move (h : Poised w) (steady : w.Steady) (tasks : w.Tasks) (m : Move plan w w') :
    Poised w' := by
  have size := (m.grown steady).size_le
  cases m with
  | stepped stepped => exact h.step steady tasks stepped
  | supplied _ => exact h.same rfl rfl size
  | called r _ => exact h.same (newTask_sameRuns r).focus (newTask_sameRuns r).records size
  | observed _ => exact h.same onSettled_sameRuns.focus onSettled_sameRuns.records size
  | cleared => exact h.same rfl rfl size
  | cancelled f => exact h.interrupted (cancel_interrupted f)
  | turned => exact h.same rfl rfl size
  | opened _ _ _ _ => exact h.same rfl rfl size
  | closed _ => exact h.same rfl rfl size

end Poised

/-! ### Reachable states -/

structure Sound (w : World) : Prop where
  proper : AllProper w
  poised : Poised w
  lanes : Lanes w
  roles : w.Roles
  tasks : w.Tasks
  joints : w.Joints

theorem Sound.steady (h : Sound w) : w.Steady :=
  ⟨h.lanes.sourced, h.poised.sequential, h.poised.dispatch, h.proper.settlements, h.proper.outcome⟩

theorem Sound.move (h : Sound w) (m : Move plan w w') : Sound w' where
  proper := h.proper.move h.steady m
  poised := h.poised.move h.steady h.tasks m
  lanes := h.lanes.move h.steady m
  roles := h.roles.move h.steady m
  tasks := h.tasks.move h.roles h.steady m
  joints := h.joints.move h.roles h.tasks h.steady m

theorem Sound.fresh (h : w.Fresh) : Sound w where
  proper := .fresh h
  poised := .of_unguarded (by rw [h.focus]; rfl)
  lanes := .fresh h
  roles := .fresh h
  tasks := .fresh h
  joints := .fresh h

theorem Reachable.sound (h : Reachable plan w) : Sound w := by
  induction h with
  | fresh fresh => exact .fresh fresh
  | move _ m ih => exact ih.move m

end World

end Conductor
