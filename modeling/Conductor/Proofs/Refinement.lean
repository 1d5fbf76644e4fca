import Conductor.Proofs.Phases
import Conductor.Proofs.Recursion
import Conductor.Proofs.Verdicts

/-!
# The machine along the recursion

Where there are no groups, the machine goes through entries as the direct recursion does: from the routine that
begins with them to its end, with the same calls, values and executed nodes, and with the same error if there is
one. The states of the two differ in what they show only, which nothing that they do depends on.
-/

namespace Conductor.World

variable {plan : Plan} {w w' w₁ w₂ v u : World} {run : RunId} {node : Node} {t : FutureId} {stack : List Frame}
  {e : Raised} {args : DictRef} {r : Record}

/-! ### Behind what is shown -/

/-- A state without what it shows, and with no task at work. -/
def bare (w : World) : World := { w with nodes := #[], logs := #[], journal := [], focus := .idle }

def display (w : World) : Display := ⟨w.nodes, w.logs, w.journal, fun _ => w.focus⟩

theorem showing_display (w : World) : w.bare.showing w.display = w := by
  simp [bare, display, showing]

/-- What pays no heed to what is shown does the same in states that differ in that only. -/
theorem blind_congr {α : Type} {f : World → α × World} (blind : ∀ d w, f (World.showing w d) = d.behind (f w))
    (same : w.bare = v.bare) : ∃ x w' v', f w = (x, w') ∧ f v = (x, v') ∧ w'.bare = v'.bare := by
  have apart (w : World) : f w = w.display.behind (f w.bare) := by rw [← blind, showing_display]
  exact ⟨(f w.bare).1, _, _, apart w, (apart v).trans (congrArg v.display.behind (congrArg f same.symm)), rfl⟩

section Same

variable (same : w.bare = v.bare)
include same

theorem heap_bare : w.heap = v.heap := by
  have heap := congrArg World.heap same
  exact heap

theorem records_bare : w.records = v.records := by
  have records := congrArg World.records same
  exact records

theorem resultOf_bare (part : String) (x : Conductor.Reported) : w.resultOf part x = v.resultOf part x := by
  have result := congrArg (fun u : World => u.resultOf part x) same
  exact result

end Same

/-! ### A run that stands -/

structure Standing (w : World) (run : RunId) (r : Record) : Prop where
  known : w.record? run = some r
  running : r.status = .running
  pending : w.settlement? r.outcome = none
  roles : w.Roles

namespace Standing

theorem isSettled (standing : Standing w run r) : w.isSettled run = false := by
  rw [World.isSettled, status, standing.known]
  exact congrArg Status.isSettled standing.running

theorem argsOf (standing : Standing w run r) : w.argsOf run = r.args := by
  rw [World.argsOf, standing.known]

theorem isPending (standing : Standing w run r) : w.isPending r.outcome := by
  have role := standing.roles.outcomes run r.outcome (Verdicts.outcome_of_record standing.known)
  obtain ⟨p, own, -⟩ := Option.map_eq_some_iff.mp role
  obtain ⟨x, found⟩ := future?_isSome (purpose?_lt own)
  have pending := standing.pending
  rw [settlement?_of_future? found] at pending
  simp [World.isPending, found, pending]

theorem kept (standing : Standing w run r) (records : w'.records = w.records) (roles : w'.Roles)
    (spares : Spares w w') : Standing w' run r where
  known := (record?_congr records run).trans standing.known
  running := standing.running
  pending := (spares r.outcome run (standing.roles.outcomes run r.outcome
    (Verdicts.outcome_of_record standing.known))).trans standing.pending
  roles := roles

theorem scripted (standing : Standing w run r) (scripted : Scripted w w') : Standing w' run r :=
  standing.kept scripted.sameRuns.records (standing.roles.scripted scripted).1 (.scripted standing.roles scripted)

theorem newCompletion (standing : Standing w run r) (d : Descriptor) (sequential : d.policy = .sequential) :
    Standing (w.newCompletion d).2 run r := by
  refine standing.kept (newCompletion_records d) (standing.roles.newCompletion d).1 (.of_settlements fun f => ?_)
  unfold World.newCompletion
  rw [sequential]
  rfl

end Standing

/-- Whether an error is one that a future takes: an ordinary one, but not the end of an iteration. -/
def Acceptable (e : Raised) : Prop := e.fault.isOrdinary ∧ e.fault.nature ≠ .stopIteration

abbrev rejected (plan : Plan) (run : RunId) (e : Raised) (w : World) : World := (w.reject plan run e).2

theorem failFuture_pending {f : FutureId} (pending : w.isPending f) (acceptable : Acceptable e) :
    w.failFuture f e = .ok (w.settle f (.failed e)) := by
  rw [failFuture, if_neg (by simp [pending]), if_neg acceptable.2]

/-- A pending future that is settled in a state with some records is settled as it is told. -/
theorem settled_pending {f : FutureId} {x : Settlement} (pending : w.isPending f) :
    (w.settle f x).settlement? f = some x := by
  unfold World.isPending at pending
  split at pending
  · rename_i future found
    rw [settlement?_settle_self found, Option.isNone_iff_eq_none.mp pending]
    rfl
  · cases pending

/-- An error that is accepted rejects a run that stands, and whoever waits for it learns that. -/
theorem Standing.reject (plan : Plan) (standing : Standing w run r) (acceptable : Acceptable e) :
    ∃ w', w.reject plan run e = (.ok true, w') ∧ (∃ ms, w'.status run = .rejected ms e) ∧
      w'.settlement? r.outcome = some (.failed e) := by
  let u := w.setStatus run (.rejected (w.elapsed r.started) e)
  -- the line of the log changes nothing of this
  have concluded (x : World) (records : x.records = u.records) :
      (x.settle r.outcome (.failed e)).status run = .rejected (w.elapsed r.started) e := by
    rw [status_congr settle_sameRuns.records, status_congr records]
    exact status_setStatus standing.known _
  have pending := standing.isPending
  unfold World.reject
  rw [standing.known]
  simp only [standing.running]
  cases plan.settings.logFailures
  · have took := failFuture_pending (w := u) pending acceptable
    exact ⟨_, by rw [if_neg (by decide), took], ⟨_, concluded u rfl⟩, settled_pending (w := u) pending⟩
  · have took := failFuture_pending (w := u.log (.rejected e.fault)) pending acceptable
    exact ⟨_, by rw [if_pos rfl, took], ⟨_, concluded (u.log _) rfl⟩, settled_pending (w := u.log _) pending⟩

/-- A run that stands can be resolved, and whoever waits for it learns that. -/
theorem Standing.resolve (standing : Standing w run r) :
    ∃ w', w.resolve run = (.ok (), w') ∧ (∃ ms, w'.status run = .resolved ms) ∧
      w'.settlement? r.outcome = some (.value (.record run)) := by
  let ms := w.elapsed r.started
  let u := (w.setStatus run (.resolved ms)).log (.resolved ms)
  have pending : u.isPending r.outcome := standing.isPending
  have status : (u.settle r.outcome (.value (.record run))).status run = .resolved ms := by
    rw [status_congr settle_sameRuns.records]
    exact status_setStatus standing.known _
  unfold World.resolve
  rw [standing.known]
  simp only [standing.running]
  exact ⟨_, by rw [if_neg (by decide), if_pos pending], ⟨ms, status⟩, settled_pending pending⟩

/-! ### What is told of a run -/

def callsOf (w : World) (run : RunId) : List (Head × Entries) :=
  w.course.reverse.filterMap fun
    | (other, .called h args) => if other = run then some (h, args) else none
    | _ => none

def executedOf (w : World) (run : RunId) : List Head :=
  w.course.reverse.filterMap fun
    | (other, .completed h _ _) => if other = run then some h else none
    | _ => none

def ticked (flags : Array Bool) (h : Head) : Array Bool := flags.modify h.slot fun _ => true

/-- Whether a run has made calls and executed nodes between two states, in this order, and no run has done
anything else there. -/
structure Recounts (run : RunId) (called : List (Head × Entries)) (done : List Head) (w w' : World) : Prop where
  calls : w'.callsOf run = w.callsOf run ++ called
  executed : w'.executedOf run = w.executedOf run ++ done
  flags : w'.nodes.map (·.executed) = done.foldl ticked (w.nodes.map (·.executed))

/-- Writing to one element and then looking at all is the same as writing to what is looked at. -/
theorem map_modify {α β : Type} {a : Array α} {i : Nat} {write : α → α} {look : α → β} {write' : β → β}
    (agree : ∀ x, look (write x) = write' (look x)) : (a.modify i write).map look = (a.map look).modify i write' := by
  apply Array.ext_getElem?
  intro j
  simp only [Array.getElem?_map, Array.getElem?_modify]
  split
  · cases a[j]? with
    | none => rfl
    | some x => exact congrArg some (agree x)
  · rfl

theorem map_modify_same {α β : Type} {a : Array α} {i : Nat} {write : α → α} {look : α → β}
    (agree : ∀ x, look (write x) = look x) : (a.modify i write).map look = a.map look := by
  apply Array.ext_getElem?
  intro j
  simp only [Array.getElem?_map, Array.getElem?_modify]
  split
  · cases a[j]? with
    | none => rfl
    | some x => exact congrArg some (agree x)
  · rfl

namespace Recounts

variable {called called' : List (Head × Entries)} {done done' : List Head}

theorem trans (h : Recounts run called done w w₁) (h' : Recounts run called' done' w₁ w₂) :
    Recounts run (called ++ called') (done ++ done') w w₂ where
  calls := by rw [h'.calls, h.calls, List.append_assoc]
  executed := by rw [h'.executed, h.executed, List.append_assoc]
  flags := by rw [h'.flags, h.flags, List.foldl_append]

theorem idle (h : Recounts run called done w w₁) (h' : Recounts run [] [] w₁ w₂) : Recounts run called done w w₂ := by
  simpa only [List.append_nil] using h.trans h'

theorem of_same (nodes : w'.nodes = w.nodes) (course : w'.course = w.course) : Recounts run [] [] w w' where
  calls := by rw [callsOf, course, List.append_nil]; rfl
  executed := by rw [executedOf, course, List.append_nil]; rfl
  flags := by rw [nodes]; rfl

theorem aside (aside : Aside w w') : Recounts run [] [] w w' := of_same aside.nodes aside.course

theorem scripted (scripted : Scripted w w') : Recounts run [] [] w w' :=
  of_same scripted.sameRuns.nodes (course_congr scripted.sameRuns.journal)

theorem of_called (marked : Marked plan run node w w₁) (args : Entries) :
    Recounts run [(node.head, args)] [] w (w₁.note run (.called node.head args)) where
  calls := by
    rw [callsOf, course_called, marked.course]
    simp [callsOf]
  executed := by
    rw [executedOf, course_called, marked.course]
    simp [executedOf]
  flags := by
    change w₁.nodes.map _ = _
    rw [marked.nodes]
    exact map_modify_same fun _ => rfl

theorem of_completed {result : Result} (merged : Merged run node result w w') : Recounts run [] [node.head] w w' where
  calls := by
    rw [callsOf, merged.course]
    simp [callsOf]
  executed := by
    rw [executedOf, merged.course]
    simp [executedOf]
  flags := by
    obtain ⟨ms, nodes⟩ := merged.nodes
    rw [nodes]
    change _ = (w.nodes.map (·.executed)).modify node.slot fun _ => true
    exact map_modify fun _ => rfl

end Recounts

/-! ### A node -/

theorem bare_beginNode : (w.beginNode plan run node).bare = w.bare := by
  unfold beginNode
  dsimp only
  split <;> rfl

theorem Standing.of_bare (standing : Standing v run r) (same : w.bare = v.bare) :
    w.record? run = some r ∧ w.isSettled run = false ∧ w.argsOf run = r.args := by
  have records := records_bare same
  have known : w.record? run = some r := (record?_congr records run).trans standing.known
  refine ⟨known, ?_, ?_⟩
  · rw [World.isSettled, status_congr records]
    exact standing.isSettled
  · rw [World.argsOf, known]

inductive Attempted (plan : Plan) (run : RunId) (r : Record) (node : Node) (t : FutureId) (stack : List Frame)
    (w v u : World) : Except Raised Result × World → Prop where
  | failed {x v' : World} {e : Raised} (standing : Standing v' run r) (same : x.bare = v'.bare)
      (recounts : Recounts run [(node.head, v.heap.dict r.args)] [] w x)
      (here : u = x.failNode plan run node t stack e) : Attempted plan run r node t stack w v u (.error e, v')
  | merged {x v' : World} {result : Result} {call : Call} (standing : Standing v' run r) (same : x.bare = v'.bare)
      (recounts : Recounts run [(node.head, v.heap.dict r.args)] [node.head] w x) (own : call.node = node)
      (here : u = x.enter t (.follow run node result) (.following run call none :: stack)) :
      Attempted plan run r node t stack w v u (.ok result, v')

theorem scripted_collectReport (c : CompletionId) : Scripted w (w.collectReport c).2 := by
  unfold collectReport
  split
  · exact .refl w
  · exact scripted_collect c

theorem complete_bare (plan : Plan) (node : Node) (same : w.bare = v.bare) (shared : w.argsOf run = args)
    (result : Result) (started : Nat) :
    match v.heap.merge args result.payload with
    | .error f => w.complete plan run node result started = .error f
    | .ok heap => ∃ u, w.complete plan run node result started = .ok u ∧ u.bare = { v with heap }.bare := by
  unfold World.complete
  rw [heap_bare same, shared]
  cases v.heap.merge args result.payload with
  | error f => rfl
  | ok heap =>
    have merged : { w with heap }.bare = { v with heap }.bare := congrArg (fun u : World => { u with heap }) same
    refine ⟨_, rfl, ?_⟩
    split <;> exact merged

theorem scripted_merge {heap : Heap} {x : Value} (merged : w.heap.merge args x = .ok heap) :
    Scripted w { w with heap } :=
  aside_of_heap (Nat.le_of_eq (Heap.merge_size merged).symm)

theorem Attempted.refused {call : Call} (own : call.node = node) (same : w₁.bare = w₂.bare)
    (standing : Standing w₂ run r) (recounts : Recounts run [(node.head, v.heap.dict r.args)] [] w w₁) (f : Fault) :
    Attempted plan run r node t stack w v ((w₁.raise f).2.failNode plan run call.node t stack (w₁.raise f).1)
      (orRaise (.error f, w₂)) := by
  subst own
  obtain ⟨x, w₃, w₄, eq, eq', same⟩ := blind_congr (f := fun w => w.raise f) (fun d w => raise_showing f) same
  have raised : orRaise ((.error f, w₂) : Except Fault Result × World) = (.error x, w₄) := by
    rw [orRaise, eq']
  rw [raised, eq]
  have scripted : Scripted w₁ (w₁.raise f).2 := scripted_raise f
  have scripted' : Scripted w₂ (w₂.raise f).2 := scripted_raise f
  rw [eq] at scripted
  rw [eq'] at scripted'
  exact .failed (standing.scripted scripted') same (recounts.trans (.scripted scripted)) rfl

theorem Attempted.collect {call : Call} (own : call.node = node) (same : w₁.bare = w₂.bare)
    (standing : Standing w₂ run r) (recounts : Recounts run [(node.head, v.heap.dict r.args)] [] w w₁) :
    Attempted plan run r node t stack w v (w₁.collectCall plan run call t stack)
      (match w₂.collectReport call.completion with
        | (.error f, w) => orRaise (.error f, w)
        | (.ok x, w) => orRaise (w.mergeReport r.args x)) := by
  have collected : Scripted w₁ _ := scripted_collectReport call.completion
  have collected' : Scripted w₂ _ := scripted_collectReport call.completion
  obtain ⟨x, w₃, w₄, eq, eq', same⟩ := blind_congr (f := fun w => w.collectReport call.completion)
    (fun d w => collectReport_showing) same
  unfold World.collectCall
  rw [eq] at collected ⊢
  rw [eq'] at collected' ⊢
  have standing := standing.scripted collected'
  have recounts := recounts.trans (.scripted collected)
  cases x with
  | error f => exact .refused own same standing recounts f
  | ok x =>
    obtain ⟨-, unsettled, shared⟩ := standing.of_bare same
    dsimp only
    rw [if_neg (by simp [unsettled])]
    unfold World.finishCall completeReport mergeReport
    rw [resultOf_bare same]
    cases w₄.resultOf "payload" x with
    | error f => exact .refused own same standing recounts f
    | ok result =>
      simp only [bind, Except.bind, pure, Except.pure]
      have completes := complete_bare plan call.node same shared result call.started
      cases merged : w₄.heap.merge r.args result.payload with
      | error f =>
        rw [merged] at completes
        rw [completes]
        exact .refused own same standing recounts f
      | ok heap =>
        rw [merged] at completes
        obtain ⟨u, done, same⟩ := completes
        rw [done]
        have executed : Recounts run [] [node.head] w₃ u := own ▸ .of_completed (complete_merged done)
        exact .merged (standing.scripted (scripted_merge merged)) same (recounts.trans executed) own (own ▸ rfl)

theorem Attempted.enter (plan : Plan) (node : Node) (t : FutureId) (stack : List Frame) (same : w.bare = v.bare)
    (standing : Standing v run r) (plain : (plan.tree.actionFor node).IsPlain) :
    Attempted plan run r node t stack w v (w.enterSequential plan run node t stack) (attempt plan r.args node v) := by
  obtain ⟨c, w₁, w₂, eq, eq', made⟩ := blind_congr (f := fun w => w.newCompletion (descriptor plan node .sequential))
    (fun d w => newCompletion_showing _) same
  have aside : Aside w w₁ := by
    have aside := Aside.newCompletion (w := w) (descriptor plan node .sequential)
    rw [eq] at aside
    exact aside
  have standing : Standing w₂ run r := by
    have standing := standing.newCompletion (descriptor plan node .sequential) rfl
    rw [eq'] at standing
    exact standing
  -- the node is marked, and its call is noted; neither shows to the action
  let marked := w₁.beginNode plan run node
  let noted := marked.note run (.called node.head (marked.heap.dict (marked.argsOf run)))
  have begun := beginNode_marked (w := w₁) plan run node
  have made : noted.bare = w₂.bare := (bare_beginNode (w := w₁)).trans made
  have shared : marked.argsOf run = r.args :=
    begun.args.trans (standing.of_bare (w := w₁) (bare_beginNode.symm.trans made)).2.2
  have told : marked.heap.dict (marked.argsOf run) = v.heap.dict r.args := by
    rw [shared, begun.heap, aside.heap, heap_bare same]
  have recounts : Recounts run [(node.head, v.heap.dict r.args)] [] w noted := by
    have called := Recounts.of_called begun (v.heap.dict r.args)
    rw [← told] at called ⊢
    exact (Recounts.aside aside).trans called
  let action := plan.tree.actionFor node
  let arguments : List Value := [.dict r.args, .store] ++
    (if action.acceptsCompletion then [.completion .sequential c] else [])
  obtain ⟨x, w₃, w₄, called, called', same⟩ := blind_congr (f := fun w => w.invoke action arguments)
    (fun d w => invoke_showing action arguments) made
  have calling : marked.callAction plan run node (.completion .sequential c) action.acceptsCompletion = (x, w₃) := by
    rw [← called]
    exact congrArg (fun d => noted.invoke action ([.dict d, .store] ++
      (if action.acceptsCompletion then [.completion .sequential c] else []))) shared
  have played : Scripted noted w₃ := by
    have scripted := (invoked (w := noted) action arguments).scripted
    rw [called] at scripted
    exact scripted
  have played' : Scripted w₂ w₄ := by
    have scripted := (invoked (w := w₂) action arguments).scripted
    rw [called'] at scripted
    exact scripted
  have standing := standing.scripted played'
  have recounts := recounts.trans (.scripted played)
  unfold enterSequential attempt
  rw [eq, eq']
  dsimp only
  rw [calling, called']
  cases x with
  | error e => exact .failed standing same recounts rfl
  | ok returned =>
    obtain ⟨type, rfl⟩ := plain w₂ arguments returned (congrArg Prod.fst called')
    exact .collect rfl same standing recounts

/-! ### Where the machine gets to -/

abbrev Steps (plan : Plan) : World → World → Prop := Relation.ReflTransGen fun w w' => w.step plan = some w'

/-- Where the machine is when a recursion has come to something: at the end of the routine that goes through the
same, with the same values, and with the run rejected if there is an error. -/
inductive Ended (plan : Plan) (run : RunId) (r : Record) (t : FutureId) (stack : List Frame) (w u : World)
    (x : Evaluation) : Prop where
  | returned (none : x.error = none) (standing : Standing x.world run r) (same : u.bare = x.world.bare)
      (recounts : Recounts run x.calls x.executed w u) (here : u.focus = .leave t (.ok .nothing) stack)
  | stopped {e : Raised} (some : x.error = some e) (standing : Standing x.world run r) (acceptable : Acceptable e)
      (same : u.bare = (x.world.rejected plan run e).bare) (recounts : Recounts run x.calls x.executed w u)
      (here : u.focus = .leave t (.error e) stack)

def IsFit (x : Evaluation) : Prop := ∀ e, x.error = some e → Acceptable e

theorem Standing.fails (standing : Standing v run r) (node : Node) (t : FutureId) (stack : List Frame)
    (same : w.bare = v.bare) (acceptable : Acceptable e) :
    ∃ u, w.passFailure plan run node t stack e = u.leave t (.error e) stack ∧
      u.bare = (v.rejected plan run e).bare ∧ Recounts run [] [] w u := by
  obtain ⟨x, u, v', eq, eq', same⟩ := blind_congr (f := fun w => w.reject plan run e) (fun d w => reject_showing) same
  obtain ⟨v'', rejects, -⟩ := standing.reject plan acceptable
  obtain rfl : x = .ok true := congrArg Prod.fst (eq'.symm.trans rejects)
  have aside : Aside w u := by
    have aside := Aside.reject plan run e w
    rw [eq] at aside
    exact aside
  refine ⟨u, ?_, ?_, .aside aside⟩
  · unfold World.passFailure handleFailure
    rw [eq, if_neg (by simp [acceptable.1])]
    dsimp only
    rw [leaving, if_neg acceptable.2]
    rfl
  · rw [rejected, eq']
    exact same

theorem reject_again {ms : Nat} (status : w.status run = .rejected ms e) : w.reject plan run e = (.ok true, w) := by
  unfold World.status at status
  split at status
  · rename_i known
    unfold World.reject
    rw [known]
    simp only [status, Raised.is, beq_self_eq_true]
  · cases status

/-- The error with which a run is rejected goes on upwards and changes nothing more. -/
theorem Standing.failsAgain (standing : Standing v run r) (node : Node) (t : FutureId) (stack : List Frame)
    (same : w.bare = (v.rejected plan run e).bare) (acceptable : Acceptable e) :
    w.passFailure plan run node t stack e = w.leave t (.error e) stack := by
  obtain ⟨v', rejects, ⟨ms, rejected⟩, -⟩ := standing.reject plan acceptable
  have status : w.status run = .rejected ms e := by
    rw [status_congr (records_bare same), World.rejected, rejects]
    exact rejected
  unfold World.passFailure handleFailure
  rw [reject_again status, if_neg (by simp [acceptable.1])]
  dsimp only
  rw [leaving, if_neg acceptable.2]
  rfl

theorem Standing.raises (standing : Standing v run r) (same : w.bare = v.bare) (f : Fault) :
    ∃ u, w.raise f = ((v.raise f).1, u) ∧ u.bare = (v.raise f).2.bare ∧ Standing (v.raise f).2 run r ∧
      Recounts run [] [] w u := by
  obtain ⟨x, u, v', eq, eq', same⟩ := blind_congr (f := fun w => w.raise f) (fun d w => raise_showing f) same
  have scripted : Scripted w (w.raise f).2 := scripted_raise f
  rw [eq] at scripted
  rw [eq']
  exact ⟨u, eq, same, eq' ▸ standing.scripted (scripted_raise f), .scripted scripted⟩

/-! ### One step and the rest -/

namespace Ended

variable {x : Evaluation} {calls : List (Head × Entries)} {done : List Head}

/-- What comes before, when something is made of it without any steps of the recursion. -/
theorem head (first : Recounts run [] [] w w₁) (ended : Ended plan run r t stack w₁ u x) :
    Ended plan run r t stack w u x := by
  cases ended with
  | returned none standing same recounts here => exact .returned none standing same (first.trans recounts) here
  | stopped some standing acceptable same recounts here =>
    exact .stopped some standing acceptable same (first.trans recounts) here

theorem after {next : World → Evaluation} (none : x.error = none)
    (first : Recounts run x.calls x.executed w w₁) (ended : Ended plan run r t stack w₁ u (next x.world)) :
    Ended plan run r t stack w u (x.andThen next) := by
  have rest : x.andThen next = { next x.world with
      calls := x.calls ++ (next x.world).calls, executed := x.executed ++ (next x.world).executed } := by
    rw [Evaluation.andThen, none]
  rw [rest]
  cases ended with
  | returned none standing same recounts here => exact .returned none standing same (first.trans recounts) here
  | stopped some standing acceptable same recounts here =>
    exact .stopped some standing acceptable same (first.trans recounts) here

theorem stays {next : World → Evaluation} (failed : x.error = some e)
    (ended : Ended plan run r t stack w u x) : Ended plan run r t stack w u (x.andThen next) := by
  rw [Evaluation.andThen, failed]
  exact ended

end Ended

theorem IsFit.first {x : Evaluation} {next : World → Evaluation} (fit : IsFit (x.andThen next)) : IsFit x := by
  intro e failed
  refine fit e ?_
  rw [Evaluation.andThen, failed]
  exact failed

theorem IsFit.rest {x : Evaluation} {next : World → Evaluation} (fit : IsFit (x.andThen next))
    (none : x.error = none) : IsFit (next x.world) := by
  intro e failed
  refine fit e ?_
  rw [Evaluation.andThen, none]
  exact failed

/-! ### The machine along the recursion -/

theorem step_entering (plan : Plan) {routine : Routine} (here : w.focus = .enter t routine stack) :
    w.step plan = some (w.enterRoutine plan t stack routine) := by
  rw [step, here]

theorem step_resuming {y : Yield} {frame : Frame} (here : w.focus = .leave t (.ok y) (frame :: stack)) :
    w.step plan = some (w.resumeFrame plan t stack y frame) := by
  rw [step, here]

theorem step_unwinding {frame : Frame} (here : w.focus = .leave t (.error e) (frame :: stack)) :
    w.step plan = some (w.unwindFrame plan t stack e frame) := by
  rw [step, here]

/-- Whether the machine does with entries what the recursion does. -/
def Simulates (plan : Plan) (run : RunId) (r : Record) (t : FutureId) (entries : List Entry) : Prop :=
  ∀ w v place position stack, w.bare = v.bare → Standing v run r →
    w.focus = .enter t (.branches run place position entries) stack → IsFit (evaluate plan r.args entries v) →
    ∃ u, Steps plan w u ∧ Ended plan run r t stack w u (evaluate plan r.args entries v)

theorem Ended.unframe {x : Evaluation} {call : Call}
    (ended : Ended plan run r t (.following run call none :: stack) w u x) :
    ∃ u', u.step plan = some u' ∧ Ended plan run r t stack w u' x := by
  cases ended with
  | returned none standing same recounts here =>
    have followed : Aside u (u.note run (.followed call.node.head)) := .note run rfl
    exact ⟨_, step_resuming here, .returned none standing same (recounts.idle (.aside (followed.leave _))) rfl⟩
  | stopped some standing acceptable same recounts here =>
    have again := standing.failsAgain call.node t stack same acceptable
    refine ⟨_, step_unwinding here, ?_⟩
    rw [unwindFrame, again]
    exact .stopped some standing acceptable same (recounts.idle (.of_same rfl rfl)) rfl

theorem simulate_follow {head : Head} {outputs : Option (List (Key × Branch))} {result : Result} {call : Call}
    (lists : ∀ key entries, (key, .list entries) ∈ Node.routes ⟨head, outputs⟩ → Simulates plan run r t entries)
    (same : w.bare = v.bare) (standing : Standing v run r)
    (here : w.focus = .enter t (.follow run ⟨head, outputs⟩ result) (.following run call none :: stack))
    (fit : IsFit (evaluateOutputs plan r.args head result.path outputs v)) :
    ∃ u, Steps plan w u ∧ Ended plan run r t stack w u (evaluateOutputs plan r.args head result.path outputs v) := by
  rw [evaluateOutputs_eq] at fit ⊢
  have first := step_entering plan here
  have alike : w.selected ⟨head, outputs⟩ result = v.selected ⟨head, outputs⟩ result := by
    have alike := congrArg (fun u : World => u.selected ⟨head, outputs⟩ result) same
    exact alike
  unfold enterRoutine at first
  dsimp only at first
  rw [alike] at first
  cases selected : v.selected ⟨head, outputs⟩ result with
  | error f =>
    rw [selected] at first fit
    have acceptable : Acceptable (v.raise f).1 := fit _ rfl
    obtain ⟨u, raised, same, standing', recounts⟩ := standing.raises same f
    dsimp only at first
    rw [raised] at first
    -- the fault is raised in the follower, and then rejects the run
    let lost := (u.note run (.failed head (v.raise f).1)).leave t (.error (v.raise f).1)
      (.following run call none :: stack)
    have told : Recounts run [] [] w lost := recounts.idle (.aside ((Aside.note run rfl).leave _))
    obtain ⟨u', passed, rejected, recounts'⟩ := standing'.fails (w := lost) call.node t stack same acceptable
    have second : lost.step plan = some (u'.leave t (.error (v.raise f).1) stack) := by
      rw [step_unwinding rfl, unwindFrame, passed]
    exact ⟨_, .tail (.single first) second,
      .stopped rfl standing' acceptable rejected ((told.idle recounts').idle (.of_same rfl rfl)) rfl⟩
  | ok branch =>
    rw [selected] at first fit
    cases branch with
    | none =>
      let left := w.leave t (.ok .nothing) (.following run call none :: stack)
      have followed : Aside left (left.note run (.followed call.node.head)) := .note run rfl
      have second : left.step plan = some (left.resumeFrame plan t stack .nothing (.following run call none)) :=
        step_resuming rfl
      have told : Recounts run [] [] w left := .of_same rfl rfl
      exact ⟨_, .tail (.single first) second,
        .returned rfl standing same (told.idle (.aside (followed.leave _))) rfl⟩
    | some found =>
      obtain ⟨key, entries⟩ := found
      obtain ⟨-, k, -, route⟩ := selected_some selected
      have listed : (key, Branch.list entries) ∈ Node.routes ⟨head, outputs⟩ := List.mem_of_find?_eq_some route
      let entered := w.enter t (.branches run (Node.path ⟨head, outputs⟩ ++ [.output key]) 0 entries)
        (.following run call none :: stack)
      obtain ⟨u, steps, ended⟩ := lists key entries listed entered v _ _ _ same standing rfl fit
      obtain ⟨u', last, ended'⟩ := ended.unframe
      have told : Recounts run [] [] w entered := .of_same rfl rfl
      exact ⟨u', .head first (.tail steps last), ended'.head told⟩

theorem simulate_node {head : Head} {outputs : Option (List (Key × Branch))}
    (lists : ∀ key entries, (key, .list entries) ∈ Node.routes ⟨head, outputs⟩ → Simulates plan run r t entries)
    (plain : (plan.tree.actionFor ⟨head, outputs⟩).IsPlain) (same : w.bare = v.bare) (standing : Standing v run r)
    (here : w.focus = .enter t (.sequential run ⟨head, outputs⟩) stack)
    (fit : IsFit (evaluateEntry plan r.args (.node head outputs) v)) :
    ∃ u, Steps plan w u ∧ Ended plan run r t stack w u (evaluateEntry plan r.args (.node head outputs) v) := by
  have first := step_entering plan here
  have attempted := Attempted.enter plan ⟨head, outputs⟩ t stack same standing plain
  unfold enterRoutine at first
  dsimp only at first
  rw [evaluateEntry] at fit ⊢
  generalize attempt plan r.args ⟨head, outputs⟩ v = attempt at attempted fit ⊢
  generalize w.enterSequential plan run ⟨head, outputs⟩ t stack = u at attempted first
  cases attempted with
  | @failed x v' e standing same recounts here =>
    have acceptable : Acceptable e := fit e rfl
    have noted : Recounts run [] [] x (x.note run (.failed head e)) := .aside (.note run rfl)
    obtain ⟨u', passed, rejected, recounts'⟩ :=
      standing.fails (w := x.note run (.failed head e)) ⟨head, outputs⟩ t stack same acceptable
    have there : u = u'.leave t (.error e) stack := here.trans passed
    subst there
    exact ⟨_, .single first, .stopped rfl standing acceptable rejected
      (((recounts.idle noted).idle recounts').idle (.of_same rfl rfl)) rfl⟩
  | @merged x v' result call standing same recounts own here =>
    subst here
    let entered := x.enter t (.follow run ⟨head, outputs⟩ result) (.following run call none :: stack)
    obtain ⟨u', steps, ended⟩ := simulate_follow (w := entered) lists same standing rfl (fit.rest rfl)
    have told : Recounts run [(head, v.heap.dict r.args)] [head] w entered := recounts.idle (.of_same rfl rfl)
    let visited : Evaluation := { world := v', calls := [(head, v.heap.dict r.args)], executed := [head] }
    exact ⟨u', .head first steps, .after (x := visited) rfl told ended⟩

def SimulatesEntry (plan : Plan) (run : RunId) (r : Record) (t : FutureId) (e : Entry) : Prop :=
  ∀ w v head outputs stack, e = .node head outputs → w.bare = v.bare → Standing v run r →
    w.focus = .enter t (.sequential run ⟨head, outputs⟩) stack → IsFit (evaluateEntry plan r.args e v) →
    ∃ u, Steps plan w u ∧ Ended plan run r t stack w u (evaluateEntry plan r.args e v)

theorem simulate_cons {e : Entry} {rest : List Entry} (flat : e.isFlat)
    (first : SimulatesEntry plan run r t e) (others : Simulates plan run r t rest) :
    Simulates plan run r t (e :: rest) := by
  intro w v place position stack same standing here fit
  rw [evaluate] at fit ⊢
  cases e with
  | nested _ => cases flat
  | node head outputs =>
    obtain ⟨-, unsettled, -⟩ := standing.of_bare same
    let entered := w.enter t (.sequential run ⟨head, outputs⟩) (.branches run place (position + 1) rest :: stack)
    have entering : w.step plan = some entered := by
      rw [step_entering plan here, enterRoutine, if_neg (by simp [unsettled])]
    have told : Recounts run [] [] w entered := .of_same rfl rfl
    obtain ⟨u, steps, ended⟩ := first entered v head outputs _ rfl same standing rfl fit.first
    have steps : Steps plan w u := .head entering steps
    cases ended.head told with
    | returned none standing same recounts here =>
      -- the next entry is gone through from where this one has left things
      let resumed := u.enter t (.branches run place (position + 1) rest) stack
      have resuming : u.step plan = some resumed := step_resuming here
      obtain ⟨u', more, ended'⟩ := others resumed _ _ _ _ same standing rfl (fit.rest none)
      have told : Recounts run [] [] u resumed := .of_same rfl rfl
      exact ⟨u', steps.trans (.head resuming more), .after none (recounts.idle told) ended'⟩
    | stopped some standing acceptable same recounts here =>
      exact ⟨_, .tail steps (step_unwinding here),
        .stays some (.stopped some standing acceptable same (recounts.idle (.of_same rfl rfl)) rfl)⟩

theorem simulate_nil : Simulates plan run r t [] := by
  intro w v place position stack same standing here fit
  exact ⟨_, .single (step_entering plan here), .returned rfl standing same (.of_same rfl rfl) rfl⟩

theorem simulate (plan : Plan) (run : RunId) (r : Record) (t : FutureId) :
    (∀ e : Entry, e.isFlat → (∀ n ∈ e.nodes, (plan.tree.actionFor n).IsPlain) → SimulatesEntry plan run r t e) ∧
    (∀ entries : List Entry, areFlat entries → (∀ n ∈ nodesOf entries, (plan.tree.actionFor n).IsPlain) →
      Simulates plan run r t entries) ∧
    (∀ routes : List (Key × Branch), areFlatRoutes routes →
      (∀ n ∈ nodesOfRoutes routes, (plan.tree.actionFor n).IsPlain) →
      ∀ k entries, (k, .list entries) ∈ routes → Simulates plan run r t entries) ∧
    (∀ b : Branch, b.isFlat → (∀ n ∈ b.nodes, (plan.tree.actionFor n).IsPlain) →
      ∀ entries, b = .list entries → Simulates plan run r t entries) := by
  refine Entry.nodes.mutual_induct _ _ _ _ ?node ?nested ?list ?raw ?nil ?cons ?noRoutes ?route
  case node =>
    rintro head outputs ih flat plain w v _ _ stack ⟨⟩ same standing here fit
    cases outputs with
    | none =>
      have own := plain _ (by rw [Entry.nodes]; exact List.mem_cons_self)
      exact simulate_node (fun _ _ listed => absurd listed List.not_mem_nil) own same standing here fit
    | some routes =>
      rw [Entry.nodes] at plain
      have lists := ih (by rwa [Entry.isFlat] at flat) fun n below => plain n (List.mem_cons_of_mem _ below)
      exact simulate_node lists (plain _ List.mem_cons_self) same standing here fit
  case nested =>
    intro entries _ flat
    cases flat
  case list =>
    rintro inner ih flat plain entries ⟨⟩
    exact ih (by rwa [Branch.isFlat] at flat) (by rwa [Branch.nodes] at plain)
  case raw =>
    rintro item _ _ entries ⟨⟩
  case nil => exact fun _ _ => simulate_nil
  case cons =>
    intro e es ih ih' flat plain
    rw [areFlat, Bool.and_eq_true] at flat
    rw [nodesOf] at plain
    exact simulate_cons flat.1 (ih flat.1 fun n here => plain n (List.mem_append_left _ here))
      (ih' flat.2 fun n later => plain n (List.mem_append_right _ later))
  case noRoutes => exact fun _ _ _ _ listed => absurd listed List.not_mem_nil
  case route =>
    intro k b rest ih ih' flat plain k' entries listed
    rw [areFlatRoutes, Bool.and_eq_true] at flat
    rw [nodesOfRoutes] at plain
    rcases List.mem_cons.mp listed with same | later
    · exact ih flat.1 (fun n here => plain n (List.mem_append_left _ here)) entries (Prod.mk.inj same).2.symm
    · exact ih' flat.2 (fun n later => plain n (List.mem_append_right _ later)) k' entries later

end Conductor.World
