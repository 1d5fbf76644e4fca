import Conductor.Proofs.Ledger
import Conductor.Proofs.Refinement

/-!
# Runs without groups

From its start to its end, a run of a graph without groups does what the direct recursion does.
-/

namespace Conductor

namespace World

/-! ### The nodes that are executed -/

theorem Evaluation.mem_executed_andThen {first : Evaluation} {next : World → Evaluation} {h : Head}
    (member : h ∈ (first.andThen next).executed) : h ∈ first.executed ∨ h ∈ (next first.world).executed := by
  unfold Evaluation.andThen at member
  split at member
  · exact .inl member
  · exact List.mem_append.mp member

variable {plan : Plan} {args : DictRef}

/-- A branch list that a result selects is among the outputs of its node. -/
theorem executed_evaluateOutputs {head : Head} {outputs : Option (List (Key × Branch))} {r : Result} {w : World}
    {h : Head} (member : h ∈ (evaluateOutputs plan args head r.path outputs w).executed) :
    ∃ k entries, (k, .list entries) ∈ Node.routes ⟨head, outputs⟩ ∧ h ∈ (evaluate plan args entries w).executed := by
  rw [evaluateOutputs_eq] at member
  split at member
  · cases member
  · cases member
  · rename_i k entries selected
    obtain ⟨-, _, -, route⟩ := selected_some selected
    exact ⟨k, entries, List.mem_of_find?_eq_some route, member⟩

theorem executed_nodes (plan : Plan) (args : DictRef) :
    (∀ e : Entry, ∀ w, ∀ h ∈ (evaluateEntry plan args e w).executed, ∃ n ∈ e.nodes, n.head = h) ∧
    (∀ entries : List Entry, ∀ w, ∀ h ∈ (evaluate plan args entries w).executed, ∃ n ∈ nodesOf entries, n.head = h) ∧
    (∀ routes : List (Key × Branch), ∀ k entries, (k, .list entries) ∈ routes → ∀ w,
      ∀ h ∈ (evaluate plan args entries w).executed, ∃ n ∈ nodesOfRoutes routes, n.head = h) ∧
    (∀ b : Branch, ∀ entries, b = .list entries → ∀ w, ∀ h ∈ (evaluate plan args entries w).executed,
      ∃ n ∈ b.nodes, n.head = h) := by
  refine Entry.nodes.mutual_induct _ _ _ _ ?node ?nested ?list ?raw ?nil ?cons ?noRoutes ?route
  case node =>
    intro head outputs ih w h member
    unfold evaluateEntry at member
    split at member
    · cases member
    · rcases Evaluation.mem_executed_andThen member with own | below
      · exact ⟨⟨head, outputs⟩, by simp [Entry.nodes.eq_def], (List.mem_singleton.mp own).symm⟩
      · obtain ⟨k, entries, listed, later⟩ := executed_evaluateOutputs below
        cases outputs with
        | none => cases listed
        | some routes =>
          rw [Entry.nodes]
          obtain ⟨n, known, own⟩ := ih k entries listed _ h later
          exact ⟨n, List.mem_cons_of_mem _ known, own⟩
  case nested =>
    intro entries _ w h member
    cases member
  case list =>
    rintro inner ih entries ⟨⟩ w h member
    rw [Branch.nodes]
    exact ih w h member
  case raw =>
    rintro item entries ⟨⟩
  case nil =>
    intro w h member
    cases member
  case cons =>
    intro e es ih ih' w h member
    rw [nodesOf]
    rcases Evaluation.mem_executed_andThen member with here | later
    · obtain ⟨n, known, own⟩ := ih w h here
      exact ⟨n, List.mem_append_left _ known, own⟩
    · obtain ⟨n, known, own⟩ := ih' _ h later
      exact ⟨n, List.mem_append_right _ known, own⟩
  case noRoutes => exact fun _ _ listed => absurd listed List.not_mem_nil
  case route =>
    intro k b rest ih ih' k' entries listed w h member
    rw [nodesOfRoutes]
    rcases List.mem_cons.mp listed with same | later
    · obtain ⟨n, known, own⟩ := ih entries (Prod.mk.inj same).2.symm w h member
      exact ⟨n, List.mem_append_left _ known, own⟩
    · obtain ⟨n, known, own⟩ := ih' k' entries later w h member
      exact ⟨n, List.mem_append_right _ known, own⟩

/-! ### From the driver to the end -/

variable {w w' u v : World} {run : RunId} {r : Record} {t : FutureId} {stack : List Frame}

/-- What a recursion has come to is what a run has come to: the calls with their args, the nodes executed, all
values, and how the run ends, for its record as for its caller. -/
structure Concluded (plan : Plan) (u v : World) (run : RunId) (r : Record) (x : Evaluation) : Prop where
  calls : v.callsOf run = u.callsOf run ++ x.calls
  executed : v.executedOf run = u.executedOf run ++ x.executed
  nodes : ∀ n ∈ plan.tree.nodes, n.slot < u.nodes.size →
    ((v.nodeState n).executed ↔ (u.nodeState n).executed ∨ n.head ∈ x.executed)
  args : v.heap.dict (v.argsOf run) = x.world.heap.dict r.args
  heap : v.heap = x.world.heap
  resolved : x.error = none → (∃ ms, v.status run = .resolved ms) ∧
    v.settlement? r.outcome = some (.value (.record run))
  rejected : ∀ e, x.error = some e → (∃ ms, v.status run = .rejected ms e) ∧
    v.settlement? r.outcome = some (.failed e)

/-- A node shows to have executed if it did or is among those that have. -/
theorem ticked_getElem? {flags : Array Bool} {done : List Head} {i : Nat} (bound : i < flags.size) :
    (done.foldl ticked flags)[i]? = some true ↔ flags[i]? = some true ∨ ∃ h ∈ done, h.slot = i := by
  induction done generalizing flags with
  | nil => simp
  | cons h rest ih =>
    have size : (ticked flags h).size = flags.size := Array.size_modify
    rw [List.foldl_cons, ih (by rwa [size])]
    have first : (ticked flags h)[i]? = some true ↔ flags[i]? = some true ∨ h.slot = i := by
      unfold ticked
      rw [Array.getElem?_modify]
      split
      · rename_i same
        simp [same, bound]
      · rename_i other
        simp [other]
    rw [first, List.exists_mem_cons_iff, or_assoc]

theorem Recounts.executed_nodes {called : List (Head × Entries)} {done : List Head}
    (compiled : plan.tree.Compiled) (recounts : Recounts run called done w w')
    (known : ∀ h ∈ done, ∃ n ∈ plan.tree.nodes, n.head = h) {n : Node} (member : n ∈ plan.tree.nodes)
    (bound : n.slot < w.nodes.size) :
    (w'.nodeState n).executed ↔ (w.nodeState n).executed ∨ n.head ∈ done := by
  have shown (x : World) : (x.nodeState n).executed ↔ (x.nodes.map (·.executed))[n.slot]? = some true := by
    rw [nodeState, Array.getElem?_map]
    cases x.nodes[n.slot]? <;> simp
  rw [shown, shown, recounts.flags, ticked_getElem? (by rwa [Array.size_map])]
  refine or_congr_right ⟨fun ⟨h, mem, same⟩ => ?_, fun mem => ⟨n.head, mem, rfl⟩⟩
  obtain ⟨m, member', rfl⟩ := known h mem
  rw [compiled.eq_of_slot member member' same.symm]
  exact mem

/-- The driver of a run does what the recursion does, and then settles the run. -/
theorem drive_concludes (compiled : plan.tree.Compiled) (flat : areFlat plan.tree.branches)
    (plain : ∀ n ∈ plan.tree.nodes, (plan.tree.actionFor n).IsPlain) (standing : Standing u run r)
    (here : u.focus = .enter t (.drive run) stack) (fit : IsFit (evaluate plan r.args plan.tree.branches u)) :
    ∃ v, Steps plan u v ∧ v.focus = .leave t (.ok .nothing) stack ∧
      Concluded plan u v run r (evaluate plan r.args plan.tree.branches u) := by
  let entered := u.enter t (.branches run [] 0 plan.tree.branches) (.drive run :: stack)
  have first : u.step plan = some entered := step_entering plan here
  obtain ⟨u₁, steps, ended⟩ := (simulate plan run r t).2.1 _ flat plain entered u _ _ _ rfl standing rfl fit
  have known := (executed_nodes plan r.args).2.1 plan.tree.branches u
  generalize evaluate plan r.args plan.tree.branches u = x at ended known fit
  have told : Recounts run [] [] u entered := .of_same rfl rfl
  cases ended.head told with
  | returned none standing same recounts here =>
    obtain ⟨v', resolves, status, settled⟩ := standing.resolve
    obtain ⟨o, v, v'', eq, eq', same'⟩ := blind_congr (f := fun w => w.resolve run) (fun d w => resolve_showing) same
    obtain ⟨rfl, rfl⟩ : o = .ok () ∧ v'' = v' := Prod.mk.inj (eq'.symm.trans resolves)
    have aside : Aside u₁ v := by
      have aside : Aside u₁ (u₁.resolve run).2 := .resolve run
      rw [eq] at aside
      exact aside
    have last : u₁.step plan = some (v.leave t (.ok .nothing) stack) := by
      rw [step_resuming here, resumeFrame, eq]
    have heap : v.heap = x.world.heap := aside.heap.trans (heap_bare same)
    have all := recounts.idle (.aside aside)
    refine ⟨_, .head first (.tail steps last), rfl, all.calls, all.executed,
      fun n member bound => all.executed_nodes compiled known member bound, ?_, heap, fun _ => ⟨?_, ?_⟩,
      fun e failed => absurd (failed.symm.trans none) (Option.some_ne_none e)⟩
    · change v.heap.dict (v.argsOf run) = _
      rw [argsOf_congr aside.args, (standing.of_bare same).2.2, heap]
    · obtain ⟨ms, status⟩ := status
      exact ⟨ms, (status_congr (records_bare same') run).trans status⟩
    · exact (congrArg (fun w : World => w.settlement? r.outcome) same').trans settled
  | @stopped e some standing acceptable same recounts here =>
    obtain ⟨v', rejects, ⟨ms, status⟩, settled⟩ := standing.reject plan acceptable
    have rejected : x.world.rejected plan run e = v' := congrArg Prod.snd rejects
    rw [rejected] at same
    have status : u₁.status run = .rejected ms e := (status_congr (records_bare same) run).trans status
    have last : u₁.step plan = .some (u₁.leave t (.ok .nothing) stack) := by
      rw [step_unwinding here, unwindFrame, if_neg (by simp [acceptable.1]), reject_again status]
    have aside : Aside x.world v' := rejected ▸ .reject plan run e x.world
    have heap : u₁.heap = x.world.heap := (heap_bare same).trans aside.heap
    refine ⟨_, .head first (.tail steps last), rfl, recounts.calls, recounts.executed,
      fun n member bound => recounts.executed_nodes compiled known member bound, ?_, heap,
      fun none => absurd (some.symm.trans none) (Option.some_ne_none e), fun e' failed => ?_⟩
    · change u₁.heap.dict (u₁.argsOf run) = _
      have shared : u₁.argsOf run = v'.argsOf run := by
        rw [World.argsOf, World.argsOf, record?_congr (records_bare same)]
      rw [shared, argsOf_congr aside.args, standing.argsOf, heap]
    · obtain rfl : e = e' := Option.some.inj (some.symm.trans failed)
      exact ⟨⟨ms, status⟩, (congrArg (fun w : World => w.settlement? r.outcome) same).trans settled⟩

/-! ### From the start to the driver -/

theorem resumeTask_unstarted {routine : Routine}
    (own : w.purpose? t = some (.task (.unstarted routine) none false)) (pending : w.settlement? t = none) :
    w.resumeTask t (.ok .nothing) = (w.activate t).enter t routine [] := by
  obtain ⟨x, found, purpose⟩ := Option.map_eq_some_iff.mp own
  obtain ⟨loop, settled, callbacks, _⟩ := x
  rw [settlement?_of_future? found] at pending
  change settled = none at pending
  subst pending purpose
  unfold resumeTask
  rw [found]
  rfl

/-- A task whose first step comes next in the queue of an idle machine enters its routine, and nothing else
happens. -/
theorem enters_next (plan : Plan) {routine : Routine} {rest : List Job} (idle : w.focus = .idle)
    (ready : w.agenda.ready = .resume t :: rest)
    (own : w.purpose? t = some (.task (.unstarted routine) none false)) (pending : w.settlement? t = none) :
    ∃ u, Steps plan w u ∧ u.focus = .enter t routine [] ∧ Aside w u ∧ u.records = w.records ∧
      ∀ f, u.settlement? f = w.settlement? f := by
  have taken {w : World} {left : Nat} {rest : List Job} (idle : w.focus = .idle)
      (ready : w.agenda.ready = .resume t :: rest) (more : w.agenda.left = left + 1)
      (own : w.purpose? t = some (.task (.unstarted routine) none false)) (pending : w.settlement? t = none) :
      ∃ u, w.step plan = some u ∧ u.focus = .enter t routine [] ∧ Aside w u ∧ u.records = w.records ∧
        ∀ f, u.settlement? f = w.settlement? f := by
    let taking : World := { w with agenda := { w.agenda with ready := rest, left } }
    have next : w.nextJob? = some (.resume t, taking) := by
      rw [nextJob?, more, ready]
    refine ⟨(taking.activate t).enter t routine [], ?_, rfl, ⟨rfl, rfl, rfl, rfl⟩, rfl, fun f => ?_⟩
    · rw [step, idle]
      dsimp only
      rw [next]
      exact congrArg some (resumeTask_unstarted (w := taking) own pending)
    · exact settlement?_repurpose (w := taking)
  cases more : w.agenda.left with
  | succ left =>
    obtain ⟨u, stepped, all⟩ := taken idle ready more own pending
    exact ⟨u, .single stepped, all⟩
  | zero =>
    -- the turn is over, and the next one begins with the task
    have turn : w.step plan = some w.beginTurn := by
      rw [step, idle]
      dsimp only
      rw [nextJob?, more]
      dsimp only
      rw [nextTurn?, ready]
    let due := (w.agenda.timers.span fun timer => timer.due ≤ w.clock).1
    have ready' : w.beginTurn.agenda.ready = .resume t :: (rest ++ due.map (·.job)) := by
      change w.agenda.ready ++ due.map (·.job) = _
      rw [ready, List.cons_append]
    have more' : w.beginTurn.agenda.left = (rest ++ due.map (·.job)).length + 1 :=
      congrArg List.length ready'
    obtain ⟨u, stepped, focus, aside, all⟩ := taken (w := w.beginTurn) idle ready' more' own pending
    have turned : Aside w w.beginTurn := ⟨rfl, rfl, rfl, rfl⟩
    exact ⟨u, .head turn (.single stepped), focus, turned.trans aside, all⟩

/-- What starting a run makes: its record, a future for its caller, and a driver whose first step is queued. -/
theorem startRun_makes (w : World) (entries : Entries) :
    let made := (w.startRun entries).2
    let d := w.futures.size + 1
    made.record? w.records.size =
      some { args := (w.heap.newDict entries).1, started := w.clock, outcome := w.futures.size } ∧
    made.settlement? w.futures.size = none ∧ made.settlement? d = none ∧
    made.purpose? d = some (.task (.unstarted (.drive w.records.size)) none false) ∧
    made.agenda.ready = w.agenda.ready ++ [.resume d] := by
  let caller : Future := { loop := w.agenda.loop, purpose := .plain (.outcome w.records.size) }
  let driver : Future :=
    { loop := w.agenda.loop, purpose := .task (.unstarted (.drive w.records.size)) none false }
  have futures : (w.startRun entries).2.futures = (w.futures.push caller).push driver := by
    simp [startRun, newTask, newFuture, addRecord, World.log, post, caller, driver]
  have first : (w.startRun entries).2.future? w.futures.size = some caller := by
    rw [future?, futures, Array.getElem?_push, if_neg (by simp), Array.getElem?_push_size]
  have second : (w.startRun entries).2.future? (w.futures.size + 1) = some driver := by
    rw [future?, futures, ← Array.size_push caller, Array.getElem?_push_size]
  refine ⟨?_, settlement?_of_future? first, settlement?_of_future? second, ?_, ?_⟩
  · simp [startRun, record?, newTask, newFuture, addRecord, World.log, post]
  · rw [purpose?, second]
    rfl
  · simp [startRun, newTask, newFuture, addRecord, World.log, post]

theorem callsOf_new (reached : Reachable plan w) : w.callsOf w.records.size = [] := by
  refine List.filterMap_eq_nil_iff.mpr fun ⟨other, x⟩ member => ?_
  have noted := (List.mem_filter.mp (List.mem_reverse.mp member)).1
  cases x with
  | called h args =>
    have bound := reached.recorded .call noted rfl
    exact if_neg (Nat.ne_of_lt bound)
  | _ => rfl

theorem executedOf_new (reached : Reachable plan w) : w.executedOf w.records.size = [] := by
  refine List.filterMap_eq_nil_iff.mpr fun ⟨other, x⟩ member => ?_
  have noted := (List.mem_filter.mp (List.mem_reverse.mp member)).1
  cases x with
  | completed h result payload =>
    have bound := reached.recorded .complete noted rfl
    exact if_neg (Nat.ne_of_lt bound)
  | _ => rfl

/-- Whether the driver of a new run begins, with a copy of the entries that the run was given for its args. -/
structure Driven (plan : Plan) (u : World) (run : RunId) (r : Record) (entries : Entries) : Prop where
  driver : ∃ d, u.focus = .enter d (.drive run) []
  standing : Standing u run r
  args : u.heap.dict r.args = entries
  calls : u.callsOf run = []
  executed : u.executedOf run = []

theorem agenda_setPosition {t : FutureId} (p : Position) (waiting : Option FutureId) :
    (w.setPosition t p waiting).agenda = w.agenda := by
  unfold setPosition
  split <;> rfl

theorem agenda_onSettled_pending {f : FutureId} {j : Job} (pending : w.settlement? f = none) :
    (w.onSettled f j).agenda = w.agenda := by
  unfold onSettled
  split
  · rename_i x found
    rw [settlement?_of_future? found] at pending
    rw [if_neg (by simp [pending])]
    rfl
  · rfl

/-- When nothing else is queued, the driver of a run begins next, with the nodes cleared if the run was to clear
them. -/
theorem start_drives {given : Value} {routine : Routine} {entries : Entries} (reached : Reachable plan w)
    (here : w.focus = .enter t routine stack) (kind : routine = .runner given ∨ routine = .execute given)
    (free : w.agenda.ready = []) (made : w.heap.entriesOf given = .ok entries) :
    ∃ u r, Steps plan w u ∧ Driven plan u w.records.size r entries ∧
      (routine = .runner given → ∀ n, (u.nodeState n).executed = false) := by
  obtain ⟨x, began, made, free, sameRecords, sameFutures, sameCourse, cleared⟩ : ∃ x : World,
      w.step plan = some (x.enterRunner given t stack) ∧ x.heap.entriesOf given = .ok entries ∧
      x.agenda.ready = [] ∧ x.records = w.records ∧ x.futures = w.futures ∧ x.course = w.course ∧
      (routine = .runner given → x.nodes = w.nodes.map fun _ => {}) := by
    rcases kind with rfl | rfl
    · exact ⟨w.resetNodes, step_entering plan here, made, free, rfl, rfl, rfl, fun _ => rfl⟩
    · exact ⟨w, step_entering plan here, made, free, rfl, rfl, rfl, fun other => nomatch other⟩
  let run := x.records.size
  let o := x.futures.size
  let w₁ := (x.startRun entries).2
  obtain ⟨known, pending, pending', own, ready⟩ := startRun_makes x entries
  obtain ⟨heap, -, -, nodes, course⟩ := startRun_begun (w := x) entries
  let r : Record := { args := (x.heap.newDict entries).1, started := x.clock, outcome := o }
  change w₁.record? run = some r at known
  -- the caller waits for the outcome
  let waiting := w₁.enter t (.wait o) (.runner run :: stack)
  have first : w.step plan = some waiting := by
    have outcome : w₁.outcomeOf run = o := by rw [outcomeOf, known]
    rw [began, enterRunner, made]
    exact congrArg (fun o => some (w₁.enter t (.wait o) (.runner run :: stack))) outcome
  let placed := waiting.setPosition t (.suspended (.runner run :: stack)) (some o)
  let w₂ : World := { placed.onSettled o (.wake t o) with focus := .idle }
  have second : waiting.step plan = some w₂ := by
    have pending : waiting.settlement? o = none := pending
    rw [step_entering plan (rfl : waiting.focus = _), enterRoutine, pending]
    rfl
  have aside : Aside w₁ w₂ := by
    have aside := (Aside.setPosition (w := waiting) t (.suspended (.runner run :: stack)) (some o)).trans
      (.onSettled o (.wake t o))
    exact ⟨aside.heap, aside.nodes, aside.args, aside.course⟩
  have records : w₂.records = w₁.records :=
    (onSettled_sameRuns (w := placed)).records.trans (setPosition_sameRuns (w := waiting) (f := t) _ _).records
  have settlements (f : FutureId) : w₂.settlement? f = w₁.settlement? f :=
    (settlement?_onSettled (w := placed)).trans (settlement?_setPosition (w := waiting) (t := t) _ _)
  have caller : t < x.futures.size := sameFutures ▸ (reached.sound.tasks.focus t (by rw [here]; rfl)).2.lt
  have own' : w₂.purpose? (o + 1) = some (.task (.unstarted (.drive run)) none false) :=
    (purpose?_onSettled (w := placed)).trans
      ((purpose?_setPosition_other (w := waiting) _ _ (Nat.ne_of_gt (Nat.lt_succ_of_lt caller))).trans own)
  have ready' : w₂.agenda.ready = [.resume (o + 1)] := by
    have agenda : w₂.agenda = placed.agenda :=
      agenda_onSettled_pending ((settlement?_setPosition (w := waiting) _ _).trans pending)
    have agenda' : placed.agenda = w₁.agenda := agenda_setPosition _ _
    rw [agenda, agenda', ready, free, List.nil_append]
  obtain ⟨u, steps, focus, aside', records', settlements'⟩ :=
    enters_next plan rfl ready' own' ((settlements _).trans pending')
  have steps : Steps plan w u := .head first (.head second steps)
  have reached' : Reachable plan u :=
    reached.moves (Relation.ReflTransGen.mono (fun _ _ stepped => .stepped stepped) _ _ steps)
  have told : u.course = w.course := aside'.course.trans (aside.course.trans (course.trans sameCourse))
  have shown : u.nodes = x.nodes := aside'.nodes.trans (aside.nodes.trans nodes)
  have number : w.records.size = run := congrArg Array.size sameRecords.symm
  refine ⟨u, r, steps, ⟨⟨_, number ▸ focus⟩, ⟨?_, rfl, ?_, reached'.sound.roles⟩, ?_, ?_, ?_⟩, fun kind n => ?_⟩
  · exact (record?_congr (records'.trans records) _).trans (number ▸ known)
  · exact ((settlements' o).trans (settlements o)).trans pending
  · rw [aside'.heap, aside.heap, heap]
    exact Heap.dict_newDict_self
  · rw [callsOf, told]
    exact callsOf_new reached
  · rw [executedOf, told]
    exact executedOf_new reached
  · rw [nodeState, shown, cleared kind, Array.getElem?_map]
    cases w.nodes[n.slot]? <;> rfl

/-! ### From the start to the end -/

/-- A run of a graph without groups, whose actions give back nothing to wait for, does what the direct recursion
does. Its driver, wherever it begins on a run that stands, calls the same actions in the same order with the same
args and leaves the same values, the same executed nodes and the same status with the same error, provided that
the error, if there is one, is one that a future takes. When nothing else is queued, the driver of a run from any
entries begins next, with a copy of them. -/
theorem groupless_runs_recurse {graph : Item} (compiled : Graph.compile graph = .ok plan.tree)
    (flat : areFlat plan.tree.branches) (plain : ∀ n ∈ plan.tree.nodes, (plan.tree.actionFor n).IsPlain) :
    (∀ u d run r stack, u.focus = .enter d (.drive run) stack → Standing u run r →
      IsFit (evaluate plan r.args plan.tree.branches u) →
      ∃ v, Steps plan u v ∧ v.focus = .leave d (.ok .nothing) stack ∧
        Concluded plan u v run r (evaluate plan r.args plan.tree.branches u)) ∧
    (∀ w t given routine stack entries, Reachable plan w → w.focus = .enter t routine stack →
      routine = .runner given ∨ routine = .execute given → w.agenda.ready = [] →
      w.heap.entriesOf given = .ok entries →
      ∃ u r, Steps plan w u ∧ Driven plan u w.records.size r entries ∧
        (routine = .runner given → ∀ n, (u.nodeState n).executed = false)) := by
  have compiled := Tree.compiled_of_compile compiled
  exact ⟨fun u d run r stack here standing fit => drive_concludes compiled flat plain standing here fit,
    fun w t given routine stack entries reached here kind free made => start_drives reached here kind free made⟩

/-- A node that takes an output, one on its branch that writes to the args, and a last one that raises. -/
def branchingItems : List Item :=
  let signature : List Parameter := [⟨"args", .standard, false⟩, ⟨"store", .standard, false⟩]
  [.leaf (.object 0 0) (.function {
      label := "a", signature := signature ++ [⟨"completion", .standard, false⟩]
      steps := [.call [.text "x", .dict [(.text "k", .int 1)]]] } {}),
    .mapping (.object 1 0) false [
      (.atom (.text "x"), .list [.leaf (.object 2 0) (.function {
        label := "b", signature, steps := [.set (.text "l") (.get (.text "k") .null)] } {})])],
    .leaf (.object 3 0) (.function {
      label := "c", signature, steps := [.raise "ValueError" (some "no")] } {})]

def branching : Plan where
  tree := Graph.compileItems branchingItems

/-- The driver of a run calls a node, the one on its branch and the next one, which rejects the run. -/
theorem raising_node_ends_recursion : ∃ u v ms e, Reachable branching u ∧ Steps branching u v ∧
    u.focus = .enter 2 (.drive 0) [] ∧ (v.callsOf 0).map (·.1.slot) = [0, 1, 2] ∧
    (v.executedOf 0).map Head.slot = [0, 1] ∧ ((v.heap.dict (v.argsOf 0)).get? (.ofText "l")).isSome ∧
    v.status 0 = .rejected ms e ∧ e.fault.className = "ValueError" := by
  let u := firstRun branching 6
  have reached : Reachable branching u := reachable_firstRun branching 6
  have compiled : Graph.compile (.list branchingItems) = .ok branching.tree := rfl
  have flat : areFlat branching.tree.branches := by decide +kernel
  have plain (n : Node) (known : n ∈ branching.tree.nodes) : (branching.tree.actionFor n).IsPlain := by
    have all : branching.tree.nodes.all fun n => (branching.tree.actionFor n).isSynchronous := by decide +kernel
    exact isPlain_of_isSynchronous (List.all_eq_true.mp all n known)
  let r : Record := { args := ⟨0⟩, started := 0, outcome := 1 }
  have standing : Standing u 0 r := ⟨rfl, rfl, rfl, reached.sound.roles⟩
  let x := evaluate branching r.args branching.tree.branches u
  obtain ⟨e, failed, name, ordinary, nature⟩ : ∃ e, x.error = some e ∧ e.fault.className = "ValueError" ∧
      e.fault.isOrdinary ∧ e.fault.nature ≠ .stopIteration := by
    have raised : x.error.any fun e => e.fault.className = "ValueError" ∧
        e.fault.isOrdinary ∧ e.fault.nature ≠ .stopIteration := by decide +kernel
    obtain ⟨e, failed, fits⟩ := (Option.any_eq_true _ _).mp raised
    exact ⟨e, failed, of_decide_eq_true fits⟩
  have fit : IsFit x := fun e' failed' => by
    obtain rfl : e = e' := Option.some.inj (failed.symm.trans failed')
    exact ⟨ordinary, nature⟩
  have calls : x.calls.map (·.1.slot) = [0, 1, 2] := by decide +kernel
  have executed : x.executed.map Head.slot = [0, 1] := by decide +kernel
  have args : ((x.world.heap.dict r.args).get? (.ofText "l")).isSome := by decide +kernel
  obtain ⟨v, steps, all⟩ : ∃ v, Steps branching u v ∧ Concluded branching u v 0 r x := by
    obtain ⟨v, steps, -, all⟩ := (groupless_runs_recurse compiled flat plain).1 u 2 0 r [] rfl standing fit
    exact ⟨v, steps, all⟩
  clear_value x
  obtain ⟨ms, status⟩ := (all.rejected e failed).1
  have uncalled : u.callsOf 0 = [] := rfl
  have idle : u.executedOf 0 = [] := rfl
  refine ⟨u, v, ms, e, reached, steps, rfl, ?_, ?_, ?_, status, name⟩
  · rw [all.calls, uncalled, List.nil_append, calls]
  · rw [all.executed, idle, List.nil_append, executed]
  · rw [all.args, args]

end World

end Conductor
