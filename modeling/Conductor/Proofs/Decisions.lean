import Conductor.Proofs.Attendance

/-!
# The failure that decides

The first ordinary failure that a run is told of rejects the run, which calls no action from then on. Only
what a node selects leaves a moment between the failure and the rejection, in which the machine does no
more than hand the failure on. A failure that is not ordinary decides nothing, unless it is that of the
body of a member that has completed.
-/

namespace Conductor.World

variable {plan : Plan} {w w' : World} {run other : RunId} {t : FutureId} {stack : List Frame} {h : Head} {e : Raised}
  {notes pre : List Note} {tasks : List (FutureId × Routine)} {next focus : Focus} {call : Call}
  {body : Option FutureId} {ms : Nat} {x : Happening} {aim : FutureId → Aim}

/-- Whether a failure is the first ordinary one that a run was told of, and the run has called no action
since. -/
def Decides (w : World) (run : RunId) (h : Head) (e : Raised) : Prop :=
  ∃ later earlier, w.notes = later ++ (run, .failed h e) :: earlier ∧ e.fault.isOrdinary ∧
    (∀ h' x, (run, .failed h' x) ∈ earlier → x.fault.isOrdinary = false) ∧
      ∀ h' args, (run, .called h' args) ∉ later

/-- What a machine goes on to that tells a run of the failure of a body whose member answers that it has
completed. -/
inductive Belated (plan : Plan) (w : World) (run : RunId) (e : Raised) : World → Prop where
  | mk {node : Node} {c : CompletionId} {explicit : Bool} {b : FutureId} {w₁ : World} (idle : w.focus = .idle)
      (next : w.nextJob? = some (.bodyEnded run node c explicit b, w₁))
      (failed : w₁.settlement? b = some (.failed e)) (completed : w₁.bodyCompleted c = .ok true) :
      Belated plan w run e (w₁.runJob plan (.bodyEnded run node c explicit b))

/-- How a run stands with the failures that it has been told of. -/
inductive Decision (plan : Plan) (w : World) (run : RunId) : Prop where
  | undecided (running : w.isSettled run = false)
      (none : ∀ h e, (run, .failed h e) ∈ w.notes → e.fault.isOrdinary = false)
  /-- What a node selects has failed, and is just about to reject the run. -/
  | falling {h : Head} {t : FutureId} {e : Raised} {call : Call} {body : Option FutureId} {stack : List Frame}
      (running : w.isSettled run = false) (decides : w.Decides run h e)
      (here : w.focus = .leave t (.error e) (.following run call body :: stack))
  | decided {h : Head} {e : Raised} {ms : Nat} (decides : w.Decides run h e)
      (rejected : w.status run = .rejected ms e)
  /-- The body of a member that had completed failed in no ordinary way. -/
  | overruled {v v' : World} {e : Raised} {ms : Nat} (fatal : e.fault.isOrdinary = false) (reached : Reachable plan v)
      (late : v.Belated plan run e v') (since : Moves plan v' w) (rejected : w.status run = .rejected ms e)
  | resolved {ms : Nat} (resolved : w.status run = .resolved ms)

/-! ### What acts note of failures -/

theorem Decides.later (decides : w.Decides run h e) (noted : w'.notes = notes ++ w.notes)
    (uncalled : ∀ h args, (run, .called h args) ∉ notes) : w'.Decides run h e := by
  obtain ⟨later, earlier, split, ordinary, first, calls⟩ := decides
  refine ⟨notes ++ later, earlier, by rw [noted, split, List.append_assoc], ordinary, first, fun h' args member => ?_⟩
  exact (List.mem_append.mp member).elim (uncalled h' args) (calls h' args)

/-- Before a node fails, no more is noted than that it is called or that what it gave back has ended. -/
theorem Loses.only (loses : Loses run t stack h pre focus) (member : (other, x) ∈ pre) :
    (∃ args, x = .called h args) ∨ x = .ended h := by
  cases loses with
  | sequential n args =>
    obtain ⟨-, rfl⟩ := Prod.mk.inj (List.mem_singleton.mp member)
    exact .inl ⟨args, rfl⟩
  | dispatch n args =>
    obtain ⟨-, rfl⟩ := Prod.mk.inj (List.mem_singleton.mp member)
    exact .inl ⟨args, rfl⟩
  | member _ _ => cases member
  | returning _ _ only =>
    rcases only with rfl | rfl
    · cases member
    · obtain ⟨-, rfl⟩ := Prod.mk.inj (List.mem_singleton.mp member)
      exact .inr rfl
  | completing _ _ _ => cases member

/-- What is noted when a run loses tells of no call, and of a rejection only by an ordinary failure. -/
theorem Losing.uncalled {o : Outcome} (losing : Losing run e notes w w' o) (h : Head) (args : Entries) :
    (other, .called h args) ∉ notes := by
  intro member
  obtain ⟨ms, x, same⟩ := losing.only _ member
  cases same

theorem Losing.ordinary {o : Outcome} {s : Status} (losing : Losing other e notes w w' o)
    (settled : (run, .settled s) ∈ notes) : run = other ∧ e.fault.isOrdinary := by
  refine ⟨?_, ?_⟩
  · obtain ⟨ms, x, same⟩ := losing.only _ settled
    exact (Prod.mk.inj same).1
  · by_contra fatal
    obtain ⟨rfl, -⟩ := losing.fatal (by simpa using fatal)
    cases settled

/-- A node that fails in an ordinary way for the first time rejects its run. -/
theorem Lost.decides (loses : Loses run t stack h pre focus) (lost : Lost run h e pre t stack w notes w' next)
    (ordinary : e.fault.isOrdinary) (known : (w.record? run).isSome) (running : w.isSettled run = false)
    (none : ∀ h e, (run, .failed h e) ∈ w.notes → e.fault.isOrdinary = false) :
    (w'.focusOn next).Decision plan run := by
  have noted := lost.effect.noted
  cases lost with
  | @mk rejections w₁ _ o first losing =>
    have note : Effect [(run, .failed h e)] [] w₁ (w₁.note run (.failed h e)) := .note trivial
    have running' : (w₁.note run (.failed h e)).isSettled run = false := by
      rcases first.status run with same | ⟨-, -, settled⟩
      · exact (congrArg Status.isSettled same).trans running
      · rcases loses.only settled with ⟨args, other⟩ | other <;> cases other
    obtain ⟨ms, rejected⟩ := losing.rejects ordinary ((Grown.effect (first.trans note)).recorded known) running'
    refine .decided (h := h) ⟨rejections, pre ++ w.notes, ?_, ordinary, ?_, ?_⟩ rejected
    · exact noted.trans (by simp)
    · intro h' x member
      rcases List.mem_append.mp member with now | before
      · rcases loses.only now with ⟨args, other⟩ | other <;> cases other
      · exact none h' x before
    · exact fun h' args => losing.uncalled h' args

/-- An act notes that a run is rejected only when a node fails in an ordinary way, or when such a failure
reaches a frame that rejects the run with it. -/
theorem Act.rejects {s : Status} (act : Act plan w focus notes tasks w' next)
    (settled : (run, .settled s) ∈ notes) (rejected : ∀ ms, s ≠ .resolved ms) :
    (∃ h e, (run, .failed h e) ∈ notes ∧ e.fault.isOrdinary) ∨
      ∃ t e frame stack, focus = .leave t (.error e) (frame :: stack) ∧ frame.run? = some run ∧
        e.fault.isOrdinary ∧ frame.takes = false := by
  have lost {other : RunId} {h : Head} {e : Raised} {pre : List Note} {t : FutureId} {stack : List Frame}
      {next : Focus} (lost : Lost other h e pre t stack w notes w' next) (before : (run, .settled s) ∉ pre) :
      ∃ h e, (run, .failed h e) ∈ notes ∧ e.fault.isOrdinary := by
    cases lost with
    | mk first losing =>
      rcases List.mem_append.mp settled with now | there
      · obtain ⟨rfl, ordinary⟩ := losing.ordinary now
        exact ⟨h, e, List.mem_append_right _ List.mem_cons_self, ordinary⟩
      · exact absurd ((List.mem_cons.mp there).resolve_left (by simp)) before
  have finished {call : Call} {body : Option FutureId} {other : RunId} {pre : List Note} {t : FutureId}
      {stack : List Frame} {next : Focus} (finished : Finished plan other call body pre t stack w notes w' next)
      (before : (run, .settled s) ∉ pre) : ∃ h e, (run, .failed h e) ∈ notes ∧ e.fault.isOrdinary := by
    cases finished with
    | lost lost' => exact lost lost' before
    | moot _ _ => exact absurd settled before
    | followed _ _ _ _ => exact absurd ((List.mem_cons.mp settled).resolve_left (by simp)) before
  have losing {frame : Frame} {other : RunId} {e : Raised} {t : FutureId} {stack : List Frame} {o : Outcome}
      (losing : Losing other e notes w w' o) (own : frame.run? = some other) (takes : frame.takes = false)
      (here : focus = .leave t (.error e) (frame :: stack)) :
      ∃ t e frame stack, focus = .leave t (.error e) (frame :: stack) ∧ frame.run? = some run ∧
        e.fault.isOrdinary ∧ frame.takes = false := by
    obtain ⟨rfl, ordinary⟩ := losing.ordinary settled
    exact ⟨t, e, frame, stack, here, own, ordinary, takes⟩
  cases act with
  | sequenced _ _ rest => exact .inl (finished rest (by simp))
  | undispatched _ rest => exact .inl (lost rest (by simp))
  | unasked rest _ => exact .inl (lost rest (by simp))
  | returned rest => exact .inl (finished rest (by simp))
  | completed rest _ => exact .inl (finished rest (by simp))
  | unreturned rest => exact .inl (lost rest (by simp))
  | uncompleted rest => exact .inl (lost rest (by simp))
  | resolved _ _ only _ =>
    obtain ⟨ms, same⟩ := only _ settled
    obtain rfl := Happening.settled.inj (Prod.mk.inj same).2
    exact absurd rfl (rejected ms)
  | rejected rest => exact .inr (losing rest rfl rfl rfl)
  | unfollowed rest => exact .inr (losing rest.toLosing rfl rfl rfl)
  | unfinished rest => exact .inr (losing rest.toLosing rfl rfl rfl)
  | _ => simp at settled

/-! ### Moves -/

namespace Decision

variable (reached : Reachable plan w) (sturdy : Sturdy aim run w) (loyal : Loyal aim w)
  (known : (w.record? run).isSome) (m : Move plan w w')

theorem settled_move (reached : Reachable plan w) (m : Move plan w w') (past : w.isSettled run) :
    w'.status run = w.status run ∧ ∀ h e, w.Decides run h e → w'.Decides run h e := by
  obtain ⟨notes, noted, same, aftermath⟩ := m.inert reached.sound.steady past
  refine ⟨by rw [status, status, same], fun h e decides => decides.later noted fun h' args member => ?_⟩
  cases aftermath _ member

include known in
theorem fall (decides : w.Decides run h e) (ordinary : e.fault.isOrdinary) (running : w.isSettled run = false)
    (here : w.focus = .leave t (.error e) (.following run call body :: stack))
    (act : Act plan w w.focus notes tasks w' next) : (w'.focusOn next).Decision plan run := by
  have noted := act.effect.noted
  rw [here] at act
  cases act with
  | replayed own _ _ => cases own
  | unfollowed losing =>
    obtain ⟨ms, rejected⟩ := losing.rejects ordinary known running
    have decides' : w'.Decides run h e := decides.later noted fun h' args => losing.uncalled h' args
    exact .decided decides' rejected

include reached known in
/-- The first ordinary failure that a move notes rejects the run, or is just about to. -/
theorem told (running : w.isSettled run = false)
    (none : ∀ h e, (run, .failed h e) ∈ w.notes → e.fault.isOrdinary = false) (noting : Noting plan w notes w')
    (failed : (run, .failed h e) ∈ notes) (ordinary : e.fault.isOrdinary) : w'.Decision plan run := by
  have noted := noting.noted
  have status := noting.status run
  cases noting with
  | acted act =>
    cases act.fails failed with
    | lost loses lost => exact lost.decides loses ordinary known running none
    | @missed t n r stack own _ here only there =>
      obtain ⟨call, body, rest, -, rfl⟩ := reached.follows here
      subst only
      refine .falling ?_ ⟨[], w.notes, noted, ordinary, none, by simp⟩ there
      rcases status with same | ⟨-, settled⟩
      · exact (congrArg Status.isSettled same).trans running
      · cases List.mem_singleton.mp settled
  | quiet _ => cases failed
  | @told other node c explicit b _ w₁ _ idle next ends _ =>
    cases ends with
    | quiet _ _ _ => cases failed
    | doomed _ _ _ => cases failed
    | unheard _ _ => cases List.mem_singleton.mp failed
    | @rejecting _ rejections x _ only _ rejects _ =>
      have own : (run, Happening.failed h e) = (other, .failed node.head x) := by
        rcases List.mem_append.mp failed with now | there
        · obtain ⟨ms, x, same⟩ := only _ now
          cases same
        · exact List.mem_singleton.mp there
      obtain ⟨rfl, same⟩ := Prod.mk.inj own
      obtain ⟨rfl, rfl⟩ := Happening.failed.inj same
      have records := (nextJob_sameRuns next).records
      obtain ⟨ms, rejected⟩ := rejects (by rwa [record?_congr records])
        ((isSettled_congr records run).trans running)
      refine .decided (h := node.head) ⟨rejections, w.notes, by rw [noted]; simp, ordinary, none, ?_⟩
        rejected
      intro h' args member
      obtain ⟨ms, x, same⟩ := only _ member
      cases same

include reached sturdy loyal known m in
theorem undecided_move (running : w.isSettled run = false)
    (none : ∀ h e, (run, .failed h e) ∈ w.notes → e.fault.isOrdinary = false) : w'.Decision plan run := by
  obtain ⟨notes, noting⟩ := m.noting reached.sound
  by_cases told : ∃ h e, (run, .failed h e) ∈ notes ∧ e.fault.isOrdinary
  · obtain ⟨h, e, failed, ordinary⟩ := told
    exact Decision.told reached known running none noting failed ordinary
  · push Not at told
    have none' (h : Head) (e : Raised) (failed : (run, .failed h e) ∈ w'.notes) : e.fault.isOrdinary = false := by
      rw [noting.noted] at failed
      exact (List.mem_append.mp failed).elim (fun now => by simpa using told h e now) (none h e)
    cases now : w'.status run with
    | running => exact .undecided (by rw [isSettled, now]; rfl) none'
    | resolved ms => exact .resolved now
    | rejected ms x =>
      rcases noting.status run with same | ⟨-, settled⟩
      · rw [isSettled, ← same, now] at running
        cases running
      rw [now] at settled
      cases noting with
      | quiet _ => cases settled
      | acted act =>
        rcases act.rejects settled (by simp) with
          ⟨h, e, failed, ordinary⟩ | ⟨t, e, frame, stack, here, own, ordinary, takes⟩
        · exact absurd ordinary (told h e failed)
        · have aims := loyal.focus t run (by rw [here]; rfl) (by rw [here]; exact stacks_cons.mpr (.inl own))
          rcases sturdy.leaving t e _ here aims with taken | ⟨past | ⟨fatal, -⟩, -⟩
          · cases taken with
            | foreign foreign => cases foreign.symm.trans own
            | noting takes' => cases takes.symm.trans takes'
            | noted _ noted => cases (none _ e noted).symm.trans ordinary
          · cases running.symm.trans past
          · cases fatal.symm.trans ordinary
      | @told other node c explicit b _ w₁ _ idle next ends ran =>
        cases ends with
        | quiet _ _ _ => cases settled
        | doomed _ _ _ => cases settled
        | unheard _ _ => cases List.mem_singleton.mp settled
        | @rejecting _ rejections e failed only _ rejects completed =>
          have own : run = other := by
            rcases List.mem_append.mp settled with now | there
            · obtain ⟨ms, x, same⟩ := only _ now
              exact (Prod.mk.inj same).1
            · cases List.mem_singleton.mp there
          subst own
          have records := (nextJob_sameRuns next).records
          obtain ⟨ms', rejected⟩ := rejects (by rwa [record?_congr records])
            ((isSettled_congr records run).trans running)
          obtain ⟨-, rfl⟩ := Status.rejected.inj (now.symm.trans rejected)
          have fatal := told node.head x (List.mem_append_right _ (List.mem_singleton.mpr rfl))
          have late : w.Belated plan run x w' := ran ▸ .mk idle next failed completed
          exact .overruled (by simpa using fatal) reached late .refl now

include reached sturdy loyal known m in
/-- However the machine moves on, the first ordinary failure that a run is told of decides. -/
theorem move (decision : w.Decision plan run) : w'.Decision plan run := by
  cases decision with
  | undecided running none => exact undecided_move reached sturdy loyal known m running none
  | decided decides rejected =>
    obtain ⟨same, keeps⟩ := settled_move reached m (by rw [isSettled, rejected]; rfl)
    exact .decided (keeps _ _ decides) (same.trans rejected)
  | overruled fatal began late since rejected =>
    obtain ⟨same, -⟩ := settled_move reached m (by rw [isSettled, rejected]; rfl)
    exact .overruled fatal began late (since.tail m) (same.trans rejected)
  | resolved resolved =>
    obtain ⟨same, -⟩ := settled_move reached m (by rw [isSettled, resolved]; rfl)
    exact .resolved (same.trans resolved)
  | falling running decides here =>
    obtain ⟨notes, noting⟩ := m.noting reached.sound
    obtain ⟨_, _, _, ordinary, _, _⟩ := id decides
    cases noting with
    | acted act => exact fall known decides ordinary running here act
    | told idle _ _ _ => cases idle.symm.trans here
    | quiet quiet =>
      have running' : w'.isSettled run = false := (isSettled_congr quiet.records run).trans running
      have none : w'.notes = [] ++ w.notes := by rw [notes, quiet.journal]; rfl
      have decides' : w'.Decides run _ _ := decides.later none (by simp)
      cases m.turn reached.sound with
      | acted act _ => exact fall known decides ordinary running here act
      | halted busy => cases here.symm.trans busy
      | ended busy => cases here.symm.trans busy
      | resumed idle => cases here.symm.trans idle
      | begun r _ => exact .falling running' decides' ((newTask_sameRuns r).focus.trans here)
      | rested _ focus => exact .falling running' decides' (focus.trans here)

end Decision

theorem Reachable.failed_recorded (reached : Reachable plan w) (compiled : plan.tree.Compiled)
    (failed : (run, .failed h e) ∈ w.notes) : (w.record? run).isSome := by
  cases reached.spoiled compiled failed with
  | @rejected ms e rejected =>
    by_contra missing
    rw [status, Option.not_isSome_iff_eq_none.mp missing] at rejected
    cases rejected
  | dropped called _ => exact reached.known called
  | falling called _ _ _ => exact reached.known called

theorem Runs.decision (runs : Runs plan run w) (compiled : plan.tree.Compiled) : w.Decision plan run := by
  induction runs with
  | @begun w w' before m new known =>
    have launch := m.launch new known
    refine .undecided (by rw [isSettled, launch.running]; rfl) fun h e failed => ?_
    rw [launch.noted] at failed
    cases new ▸ before.failed_recorded compiled failed
  | move runs m _ ih =>
    obtain ⟨aim, _, loyal, sturdy, _⟩ := runs.sturdy compiled
    exact ih.move runs.reachable sturdy loyal runs.known m

/-- Once the machine is idle, a run that was told of an ordinary failure has been rejected by the first
one, and has called no action since, unless the body of a member that had completed has rejected it in no
ordinary way. -/
theorem Runs.decided (runs : Runs plan run w) (compiled : plan.tree.Compiled) (idle : w.focus = .idle)
    (failed : (run, .failed h e) ∈ w.notes) (ordinary : e.fault.isOrdinary) :
    (∃ h e ms, w.Decides run h e ∧ w.status run = .rejected ms e) ∨
      ∃ e ms, e.fault.isOrdinary = false ∧ w.status run = .rejected ms e := by
  cases runs.decision compiled with
  | undecided _ none => cases (none h e failed).symm.trans ordinary
  | falling _ _ here => cases idle.symm.trans here
  | decided decides rejected => exact .inl ⟨_, _, _, decides, rejected⟩
  | overruled fatal _ _ _ rejected => exact .inr ⟨_, _, fatal, rejected⟩
  | resolved resolved =>
    exact absurd resolved ((runs.reachable.spoiled compiled failed).unresolved runs.reachable compiled)

end Conductor.World
