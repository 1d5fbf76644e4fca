import Conductor.Proofs.Decisions

/-!
# What becomes of bodies

Every body that a run has begun is accounted for: a node in sequence waits for it, or has been told of its
end, and the end of the body of a member is told to the run, which then hears of it from the descriptor of
the member. So a failure of a body that the descriptor does not keep from the run is noted by the time
that nothing is left to do.
-/

namespace Conductor.World

variable {plan : Plan} {w w' : World} {run : RunId} {t b : FutureId} {stack : List Frame} {h : Head} {e : Raised}
  {s : Settlement} {notes : List Note} {tasks : List (FutureId × Routine)} {next focus : Focus} {call : Call}
  {ms : Nat}

inductive Answered (w : World) (run : RunId) (call : Call) (b : FutureId) : Prop where
  | heeds {t : FutureId} {stack : List Frame} (heeds : w.Heeds t b (.returning run call :: stack))
  | ended {v : Yield} (settled : w.settlement? b = some (.value v))
  | failed {e : Raised} {s : Settlement} (noted : (run, .failed call.node.head e) ∈ w.notes)
      (settled : w.settlement? b = some s) (same : ∀ x, s = .failed x → e = x)

/-- A node in sequence that has been told of what its call gave back goes on with that, or fails with it. -/
theorem Act.answered {o : Outcome} (act : Act plan w w.focus notes tasks w' next)
    (here : w.focus = .leave t o (.returning run call :: stack)) (settled : w.settlement? b = some s)
    (delivers : Delivers o s) : (w'.focusOn next).Answered run call b := by
  have settled' := (Grown.effect act.effect).settlements _ _ settled
  have noted := act.effect.noted
  rw [here] at act
  cases act with
  | replayed own _ _ => cases own
  | returned _ =>
    obtain rfl := delivers.value rfl
    exact .ended settled'
  | @unreturned _ _ e _ _ _ _ _ lost =>
    have member : (run, .failed call.node.head e) ∈ w'.notes := by
      rw [noted]
      exact List.mem_append_left _ lost.failed
    refine .failed member settled' fun x same => ?_
    subst same
    exact Except.error.inj delivers

theorem Answered.move (answered : w.Answered run call b) (sound : w.Sound) (uncancelled : w.Uncancelled run)
    (m : Move plan w w') : w'.Answered run call b := by
  have grown := m.grown sound.steady
  cases answered with
  | ended settled => exact .ended (grown.settlements _ _ settled)
  | failed noted settled same => exact .failed (grown.subset_notes noted) (grown.settlements _ _ settled) same
  | heeds heeds =>
    rcases heeds.move sound uncancelled rfl m with heeds | ⟨o, s, _, _, w₁, next, here, settled, delivers, act, rfl⟩
    · exact .heeds heeds
    · exact act.answered here settled delivers

/-- Whether somebody sees to a body that a run has begun: a node in sequence, or the chain of a member
whose descriptor is told of the end of the body. -/
inductive Accounted (w : World) (run : RunId) (h : Head) (b : FutureId) : Prop where
  | sequential {call : Call} (own : call.node.head = h) (known : b < w.futures.size)
      (unnoticed : ¬ w.Awaits run b) (answered : w.Answered run call b)
  | member {call : Call} {c f : FutureId} (own : call.node.head = h) (since : w.Since run b)
      (report : w.first? call.completion = some f) (attended : w.Attended run call c)
      (watched : w.Watched run h call.completion b)
      (notice : ∀ n d explicit, .bodyEnded run n d explicit b ∈ w.jobs → d = call.completion)

theorem Move.unnoticed {n : Node} {d : CompletionId} {explicit : Bool} (steady : w.Steady) (m : Move plan w w')
    (known : b < w.futures.size) (member : .bodyEnded run n d explicit b ∈ w'.jobs) :
    .bodyEnded run n d explicit b ∈ w.jobs := by
  rcases m.notice steady member with old | ⟨_, _, _, _, act, -, began⟩
  · exact old
  · generalize n.head = h at began
    cases act.happens began with
    | began _ _ _ _ new => exact absurd known (Nat.not_lt.mpr (new b rfl))

theorem Accounted.move (accounted : w.Accounted run h b) (reached : Reachable plan w) (compiled : plan.tree.Compiled)
    (known : (w.record? run).isSome) (uncancelled : w.Uncancelled run) (m : Move plan w w') :
    w'.Accounted run h b := by
  have sound := reached.sound
  have grown := m.grown sound.steady
  cases accounted with
  | sequential own there unnoticed answered =>
    refine .sequential own (grown.known there) (fun waits => unnoticed ?_) (answered.move sound uncancelled m)
    obtain ⟨n, d, explicit, member⟩ := waits
    exact ⟨n, d, explicit, m.unnoticed sound.steady there member⟩
  | member own since report attended watched notice =>
    obtain ⟨_, -, -, there⟩ := id since
    exact .member own (since.grown grown) (grown.firsts _ _ report) (attended.move reached compiled uncancelled m)
      (watched.move sound reached.freed report known m) fun n d explicit member =>
        notice n d explicit (m.unnoticed sound.steady there member)

theorem Act.accounted {o : FutureId} (act : Act plan w w.focus notes tasks w' next) (reached : Reachable plan w)
    (outcome : w.outcome? run = some o) (began : (run, .began h (some b)) ∈ notes) :
    (w'.focusOn next).Accounted run h b := by
  have sound := reached.sound
  have effect := act.effect
  generalize w.focus = focus at act
  cases act with
  | sequenced _ _ finished => cases List.mem_singleton.mp (finished.of_began began)
  | undispatched _ lost => cases List.mem_singleton.mp (lost.of_began began)
  | unasked lost _ => cases lost.of_began began
  | returned finished => cases List.mem_singleton.mp (finished.of_began began)
  | completed finished _ => cases finished.of_began began
  | unreturned lost => cases lost.of_began began
  | uncompleted lost => cases lost.of_began began
  | outside call _ _ _ own unseen =>
    obtain ⟨rfl, same⟩ : run = _ ∧ _ := Prod.mk.inj ((List.mem_cons.mp began).resolve_right (by simp))
    obtain ⟨rfl, body⟩ := Happening.began.inj same
    obtain rfl := Option.some.inj body
    refine .sequential rfl (purpose?_lt own) (fun ⟨n, d, explicit, waits⟩ => unseen _ waits rfl) ?_
    exact .heeds (.waiting (.inl rfl))
  | @watched _ _ _ _ call _ _ _ _ _ w₁ f body explicit _ _ _ report new made unseen _ _ =>
    obtain ⟨rfl, same⟩ : run = _ ∧ _ := Prod.mk.inj ((List.mem_cons.mp began).resolve_right (by simp))
    obtain ⟨rfl, own⟩ := Happening.began.inj same
    obtain rfl := Option.some.inj own
    have chained : Grown w₁ (w₁.chainMember run call explicit b).2 :=
      .effect (chainMember_effect run call explicit unseen)
    have there : b < (w₁.chainMember run call explicit b).2.futures.size := Nat.lt_trans made (chainMember_size b)
    have since : (w₁.chainMember run call explicit b).2.Since run b :=
      .of_new sound.roles (.effect effect) outcome new there
    have due : (w₁.chainMember run call explicit b).2.Stands _ (.unstarted (.member run call (some b))) none :=
      ⟨false, (purpose?_newTask _).trans (if_pos rfl)⟩
    have watched := watched_chainMember sound reached.freed effect new made
    refine .member rfl since (chained.firsts _ _ report) (.due due) watched fun n d explicit' waits => ?_
    rcases List.mem_cons.mp ((jobs_newTask _).subset waits) with other | there
    · cases other
    rcases List.mem_cons.mp (jobs_onSettled.subset there) with same | old
    · exact (Job.bodyEnded.inj same).2.2.1
    · exact absurd rfl (unseen _ old)
  | resolved _ _ only _ =>
    obtain ⟨ms, same⟩ := only _ began
    cases same
  | rejected losing => exact absurd began (Rejections.of_began losing.only)
  | unfollowed losing => exact absurd began (Rejections.of_began losing.only)
  | unfinished losing => exact absurd began (Rejections.of_began losing.only)
  | _ => simp at began

theorem Runs.accounted (runs : Runs plan run w) (compiled : plan.tree.Compiled)
    (began : (run, .began h (some b)) ∈ w.notes) : w.Accounted run h b := by
  induction runs with
  | begun before m new known =>
    rw [(m.launch new known).noted] at began
    obtain ⟨args, called⟩ := before.begun began
    cases new ▸ before.known called
  | @move w w' runs m _ ih =>
    have reached := runs.reachable
    obtain ⟨notes, noting⟩ := m.noting reached.sound
    rw [noting.noted] at began
    rcases List.mem_append.mp began with now | before
    · cases noting with
      | acted act =>
        obtain ⟨o, outcome, -⟩ := runs.driver
        exact act.accounted reached outcome now
      | told _ _ ends _ => exact absurd now (ends.began _ _)
      | quiet _ => cases now
    · exact (ih before).move reached compiled runs.known (runs.calm compiled) m

/-- When nothing is left to do, the failure of a body that a run has begun has been noted, unless its
descriptor has kept it from the run or the run has settled. -/
theorem Runs.failure_noted (runs : Runs plan run w) (compiled : plan.tree.Compiled) (done : w.step plan = none)
    (began : (run, .began h (some b)) ∈ w.notes) (failed : w.settlement? b = some (.failed e))
    (heard : ∀ d, (run, .unheard h e d) ∉ w.notes) :
    (∃ x, (run, .failed h x) ∈ w.notes ∧ (x = e ∨ x.fault.nature = .ordinary)) ∨ w.isSettled run := by
  cases runs.accounted compiled began with
  | @sequential call own _ _ answered =>
    subst own
    cases answered with
    | heeds heeds => cases (heeds.pending runs compiled done rfl).symm.trans failed
    | ended settled => cases settled.symm.trans failed
    | failed noted settled same =>
      exact .inl ⟨_, noted, .inl (same e (Option.some.inj (settled.symm.trans failed)))⟩
  | @member call c f own since report attended watched _ =>
    subst own
    rcases watched with ⟨node, explicit, -, waits⟩ | missed | ⟨s, settled, hears⟩
    · cases (runs.reachable.sound.lanes.pending done waits rfl (runs.home since)).symm.trans failed
    · exact absurd missed.1 (runs.thawed since)
    · rcases hears e (Option.some.inj (settled.symm.trans failed)) with ⟨d, -, unheard⟩ | past | ⟨g, report', doomed⟩
      · exact absurd unheard (heard d)
      · exact .inr past
      · rcases attended.ended runs compiled done report' doomed with
          ⟨v, _, _, other, -⟩ | ⟨x, noted, why⟩ | ⟨⟨_, other⟩, -⟩
        · cases other
        · exact .inl ⟨x, noted, why.symm.imp (fun same => same e rfl) id⟩
        · cases other

/-! ### The first failure -/

/-- When nothing is left to do, a run in which something has failed in an ordinary way, be it a node or a
body whose descriptor has not kept that from the run, has been rejected by the first such failure that it
was told of, and has called no action since; unless the body of a member that had completed before has
failed otherwise, and that has rejected the run. -/
theorem first_noted_failure_decides {graph : Item} (compiled : Graph.compile graph = .ok plan.tree)
    (runs : Runs plan run w) (done : w.step plan = none)
    (fails : (∃ h e, (run, .failed h e) ∈ w.notes ∧ e.fault.isOrdinary) ∨
      ∃ h b e, (run, .began h (some b)) ∈ w.notes ∧ w.settlement? b = some (.failed e) ∧ e.fault.isOrdinary ∧
        ∀ d, (run, .unheard h e d) ∉ w.notes) :
    (∃ h e ms, w.Decides run h e ∧ w.status run = .rejected ms e) ∨
      ∃ e ms, e.fault.isOrdinary = false ∧ w.status run = .rejected ms e := by
  have compiled' := Tree.compiled_of_compile compiled
  have idle := (idle_of_step done).1
  rcases fails with ⟨h, e, failed, ordinary⟩ | ⟨h, b, e, began, failed, ordinary, heard⟩
  · exact runs.decided compiled' idle failed ordinary
  rcases runs.failure_noted compiled' done began failed heard with ⟨x, noted, why⟩ | past
  · refine runs.decided compiled' idle noted ?_
    rcases why with rfl | nature
    · exact ordinary
    · simp [Fault.isOrdinary, nature]
  · cases runs.decision compiled' with
    | undecided running _ => cases running.symm.trans past
    | falling running _ _ => cases running.symm.trans past
    | decided decides rejected => exact .inl ⟨_, _, _, decides, rejected⟩
    | overruled fatal _ _ _ rejected => exact .inr ⟨_, _, fatal, rejected⟩
    | resolved resolved =>
      obtain ⟨args, called⟩ := runs.reachable.begun began
      obtain ⟨n, -, rfl, r, ran, -⟩ := runs.reachable.resolved_ran compiled' resolved called
      obtain ⟨s, settled, -, told⟩ := ran.bodies b began
      obtain ⟨d, -, unheard⟩ := told e (Option.some.inj (settled.symm.trans failed))
      exact absurd unheard (heard d)

/-- A group with a member whose body fails, and with a nested list whose node fails when it is called. -/
def overtakingItems : List Item := [.list [
  .leaf (.object 0 0) (.function {
    label := "a"
    isAsync := true
    signature := [⟨"args", .standard, false⟩, ⟨"store", .standard, false⟩, ⟨"completion", .standard, false⟩]
    steps := [.raise "ValueError" none] } {}),
  .list [.leaf (.object 1 0) (.function {
    label := "b"
    signature := [⟨"args", .standard, false⟩, ⟨"store", .standard, false⟩]
    steps := [.raise "ValueError" none] } {})]]]

def overtaking : Plan where
  tree := Graph.compileItems overtakingItems

def bodyError? (w : World) (run : RunId) (slot : Nat) : Option Raised :=
  w.notes.findSome? fun
    | (other, .began h (some b)) =>
      if other = run ∧ h.slot = slot then
        match w.settlement? b with
        | some (.failed e) => some e
        | _ => none
      else none
    | _ => none

theorem began_of_bodyError? {slot : Nat} (failed : w.bodyError? run slot = some e) : ∃ h b, h.slot = slot ∧
    (run, .began h (some b)) ∈ w.notes ∧ w.settlement? b = some (.failed e) := by
  obtain ⟨x, member, here⟩ := List.exists_of_findSome?_eq_some failed
  split at here
  · rename_i other h b
    split at here
    · rename_i own
      obtain ⟨rfl, slot⟩ := own
      split at here
      · rename_i settled
        obtain rfl := Option.some.inj here
        exact ⟨h, b, slot, member, settled⟩
      · cases here
    · cases here
  · cases here

/-- The run is rejected once a body in it has failed. -/
theorem overtaken_run_is_rejected : ∃ w ms e, Runs overtaking 0 w ∧ w.step overtaking = none ∧
    w.status 0 = .rejected ms e := by
  let w := firstRun overtaking 50
  have runs : Runs overtaking 0 w := runs_firstRun overtaking 47
  have done : (w.step overtaking).isNone := by decide +kernel
  have fails : (w.bodyError? 0 0).any fun e => e.fault.isOrdinary := by decide +kernel
  have heard : w.notes.all fun x => !(x.2 matches .unheard _ _ _) := by decide +kernel
  obtain ⟨e, failed, ordinary⟩ := (Option.any_eq_true _ _).mp fails
  obtain ⟨h, b, -, began, settled⟩ := began_of_bodyError? failed
  have done' := Option.isNone_iff_eq_none.mp done
  have compiled : Graph.compile (.list overtakingItems) = .ok overtaking.tree := rfl
  rcases first_noted_failure_decides compiled runs done' (.inr ⟨h, b, e, began, settled, ordinary, fun d unheard =>
    by simpa using List.all_eq_true.mp heard _ unheard⟩) with ⟨_, x, ms, -, rejected⟩ | ⟨x, ms, -, rejected⟩
  · exact ⟨w, ms, x, runs, done', rejected⟩
  · exact ⟨w, ms, x, runs, done', rejected⟩

/-- The first failure in a run is not the one that rejects it: a body has failed, and nothing else has, and
yet another node is called, and the run is rejected with the failure of that. -/
theorem overtaking_failure_decides : ∃ (w w' : World) (h h' : Head) (b : FutureId) (e x : Raised) (ms : Nat)
    (args : Entries), Runs overtaking 0 w ∧ Moves overtaking w w' ∧ w'.step overtaking = none ∧
      (0, .began h (some b)) ∈ w.notes ∧ w.settlement? b = some (.failed e) ∧ e.fault.isOrdinary ∧
      (∀ h x, (0, .failed h x) ∉ w.notes) ∧ (0, .called h' args) ∈ w'.notes ∧ (0, .called h' args) ∉ w.notes ∧
      w'.status 0 = .rejected ms x ∧ x ≠ e := by
  let w := firstRun overtaking 16
  let w' := (work overtaking 30 [] w).2
  have done : (w'.step overtaking).isNone := by decide +kernel
  have fails : (w.bodyError? 0 0).any fun e => e.fault.isOrdinary &&
      (w'.status 0).error?.any fun x => x.id != e.id := by decide +kernel
  have clean : w.notes.all fun x => !(x.2 matches .failed _ _) := by decide +kernel
  have before : callsSlot w.notes 0 1 = false := by decide +kernel
  have after : callsSlot w'.notes 0 1 := by decide +kernel
  obtain ⟨e, failed, both⟩ := (Option.any_eq_true _ _).mp fails
  obtain ⟨ordinary, other⟩ := Bool.and_eq_true_iff.mp both
  obtain ⟨x, error, different⟩ := (Option.any_eq_true _ _).mp other
  obtain ⟨h, b, -, began, settled⟩ := began_of_bodyError? failed
  obtain ⟨h', args, slot, called⟩ := exists_of_callsSlot after
  obtain ⟨ms, rejected⟩ : ∃ ms, w'.status 0 = .rejected ms x := by
    cases status : w'.status 0 with
    | rejected ms y =>
      rw [status] at error
      exact ⟨ms, by rw [Option.some.inj error]⟩
    | _ =>
      rw [status] at error
      cases error
  refine ⟨w, w', h, h', b, e, x, ms, args, runs_firstRun overtaking 13, .work 30 [] w,
    Option.isNone_iff_eq_none.mp done, began, settled, ordinary, fun h x noted => ?_, called, fun earlier => ?_,
    rejected, fun same => ?_⟩
  · simpa using List.all_eq_true.mp clean _ noted
  · have calls : callsSlot w.notes 0 1 := List.any_eq_true.mpr ⟨_, earlier, by simp [Stage.reached?, slot]⟩
    cases before.symm.trans calls
  · simp [same] at different

end Conductor.World
