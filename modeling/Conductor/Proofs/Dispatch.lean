import Conductor.Proofs.Lineup

/-!
# A group is dispatched at once

A group calls its members one after the other, each in one step, and between these steps the machine does nothing
else: no job is taken, nothing is merged, no chain begins. If a call raises, the members behind it are never
called. So all members that are called find the same args, as long as no action writes them.
-/

namespace Conductor.World

variable {plan : Plan} {u v w w' : World} {run : RunId} {place : Path} {t : FutureId} {stack : List Frame}
  {members done rest later inner : List Entry} {n : Node} {e : Entry} {chains : List FutureId} {position : Nat}

/-- Whether the chain of a member has been made and has not begun. -/
inductive Due (w : World) (run : RunId) (place : Path) (position : Nat) (c : FutureId) : Entry → Prop
  | member {call : Call} {body : Option FutureId} (stood : w.Stands c (.unstarted (.member run call body)) none) :
      Due w run place position c call.node.entry
  | sequence {inner : List Entry}
      (stood : w.Stands c (.unstarted (.branches run (place ++ [.entry position]) 0 inner)) none) :
      Due w run place position c (.nested inner)

/-- Whether a group that has come to its members `rest` has one chain for each of the members `done`. -/
structure Dispatching (w : World) (run : RunId) (place : Path) (t : FutureId) (stack : List Frame)
    (done rest : List Entry) (chains : List FutureId) : Prop where
  here : w.focus = .enter t (.dispatch run place done.length rest chains) stack
  length : chains.length = done.length
  due : ∀ (i : Nat) e c, done[i]? = some e → chains[i]? = some c → w.Due run place i c e

inductive Dispatches (plan : Plan) (run : RunId) (u : World) (members : List Entry) :
    List Entry → List Entry → World → Prop
  | start : Dispatches plan run u members [] members u
  | called {done rest : List Entry} {n : Node} {w w' : World}
      (before : Dispatches plan run u members done (n.entry :: rest) w)
      (fine : ∀ e, (w.answer plan run n .concurrent).1 ≠ .error e) (stepped : w.step plan = some w') :
      Dispatches plan run u members (done ++ [n.entry]) rest w'
  | spawned {done rest inner : List Entry} {w w' : World}
      (before : Dispatches plan run u members done (.nested inner :: rest) w) (stepped : w.step plan = some w') :
      Dispatches plan run u members (done ++ [.nested inner]) rest w'

theorem Due.rests {tasks : List (FutureId × Routine)} {c : FutureId} (due : w.Due run place position c e)
    (rests : Rests tasks w w') : w'.Due run place position c e := by
  cases due with
  | member stood => exact .member (rests.kept _ _ _ stood)
  | sequence stood => exact .sequence (rests.kept _ _ _ stood)

theorem Due.idles {c : FutureId} (due : w.Due run place position c e) : w.Idles c := by
  cases due with
  | member stood => exact ⟨_, _, stood⟩
  | sequence stood => exact ⟨_, _, stood⟩

/-- A group goes on to the next member once the last one has its chain. -/
theorem Dispatching.advance {tasks : List (FutureId × Routine)} {c : FutureId}
    (dispatching : w.Dispatching run place t stack done (e :: rest) chains) (rests : Rests tasks w w')
    (here : w'.focus = .enter t (.dispatch run place (done.length + 1) rest (chains ++ [c])) stack)
    (due : w'.Due run place done.length c e) : w'.Dispatching run place t stack (done ++ [e]) rest (chains ++ [c]) where
  here := by rw [here, List.length_append, List.length_singleton]
  length := by rw [List.length_append, List.length_append, dispatching.length]; rfl
  due i e' c' found found' := by
    rcases Nat.lt_trichotomy i done.length with less | rfl | more
    · rw [List.getElem?_append_left less] at found
      rw [List.getElem?_append_left (dispatching.length ▸ less)] at found'
      exact (dispatching.due i e' c' found found').rests rests
    · rw [List.getElem?_concat_length] at found
      rw [← dispatching.length, List.getElem?_concat_length] at found'
      obtain rfl := Option.some.inj found
      obtain rfl := Option.some.inj found'
      exact due
    · have out : (done ++ [e]).length ≤ i := by rw [List.length_append, List.length_singleton]; omega
      rw [List.getElem?_eq_none out] at found
      cases found

/-! ### One step -/

theorem step_raising {x : Raised}
    (here : w.focus = .enter t (.dispatch run place position (n.entry :: rest) chains) stack)
    (raises : (w.answer plan run n .concurrent).1 = .error x) (stepped : w.step plan = some w') :
    ∃ o, w'.focus = .leave t o stack := by
  have failed : ∃ w₁, w.dispatchMember plan run n = (.error x, w₁) := by
    unfold answer at raises
    unfold dispatchMember
    dsimp only at raises ⊢
    split
    · rename_i same
      rw [same] at raises
      obtain rfl := Except.error.inj raises
      exact ⟨_, rfl⟩
    all_goals
      rename_i same
      rw [same] at raises
      cases raises
  obtain ⟨w₁, failed⟩ := failed
  rw [step, here] at stepped
  obtain rfl := Option.some.inj stepped
  rw [Node.entry, enterRoutine, failed]
  exact ⟨_, rfl⟩

theorem step_fine (here : w.focus = .enter t (.dispatch run place position (n.entry :: rest) chains) stack)
    (fine : ∀ e, (w.answer plan run n .concurrent).1 ≠ .error e) (stepped : w.step plan = some w') :
    ∃ c, w'.focus = .enter t (.dispatch run place (position + 1) rest (chains ++ [c])) stack := by
  have made : ∃ c w₁, w.dispatchMember plan run n = (.ok c, w₁) := by
    unfold answer at fine
    unfold dispatchMember
    dsimp only at fine ⊢
    split
    · rename_i same
      rw [same] at fine
      exact absurd rfl (fine _)
    all_goals exact ⟨_, _, rfl⟩
  obtain ⟨c, w₁, made⟩ := made
  rw [step, here] at stepped
  obtain rfl := Option.some.inj stepped
  rw [Node.entry, enterRoutine, made]
  exact ⟨c, rfl⟩

/-- What the call of a member leaves, whatever its action does: it is noted with the args as they are, which the
node keeps, and nothing is merged. -/
theorem step_calls (here : w.focus = .enter t (.dispatch run place position (n.entry :: rest) chains) stack)
    (stepped : w.step plan = some w') :
    w'.course = (run, .called n.head (w.heap.dict (w.argsOf run))) :: w.course ∧ w'.argsOf run = w.argsOf run ∧
    (w'.nodes = w.nodes.modify n.slot fun s => { s with
      executing := true
      args := if plan.settings.snapshotArgs then w.heap.dict (w.argsOf run) else [] }) ∧
    ∀ d, (userCode plan w).2.heap.dict d = (userCode plan w).1.heap.dict d → w'.heap.dict d = w.heap.dict d := by
  have code : userCode plan w = calling plan run n .concurrent w := by
    unfold userCode
    rw [here]
    rfl
  have ends : Aside (userCode plan w).2 w' := by
    rw [code]
    have dispatched : Aside (calling plan run n .concurrent w).2 (w.dispatchMember plan run n).2 := dispatchMember_aside
    rw [step, here] at stepped
    obtain rfl := Option.some.inj stepped
    rw [Node.entry, enterRoutine]
    split
    · rename_i same
      rw [same] at dispatched
      exact dispatched.trans (Aside.failDispatch.leave _)
    · rename_i same
      rw [same] at dispatched
      exact dispatched.enter _
  have described : Aside w (w.newCompletion (descriptor plan n .concurrent)).2 := .newCompletion _
  have marked := beginNode_marked plan run n (w := (w.newCompletion (descriptor plan n .concurrent)).2)
  obtain ⟨v, began⟩ : ∃ v, v = (w.newCompletion (descriptor plan n .concurrent)).2.beginNode plan run n := ⟨_, rfl⟩
  have first : (userCode plan w).1 = v.note run (.called n.head (v.heap.dict (v.argsOf run))) := by
    rw [code, began]
    rfl
  rw [← began] at marked
  have heap : v.heap = w.heap := marked.heap.trans described.heap
  have args : v.argsOf run = w.argsOf run := marked.args.trans (argsOf_congr described.args run)
  have played : SameRuns (userCode plan w).1 (userCode plan w).2 := code ▸ calling_played .concurrent
  refine ⟨?_, ?_, ?_, fun d same => ?_⟩
  · rw [ends.course, course_congr played.journal, first, heap, args]
    exact congrArg _ (marked.course.trans described.course)
  · rw [argsOf_congr ends.args, argsOf, record?_congr played.records, first]
    exact args
  · rw [ends.nodes, played.nodes, first]
    exact marked.nodes.trans (by rw [described.heap, described.nodes, argsOf_congr described.args])
  · rw [ends.heap, same, first]
    exact congrArg (Heap.dict · d) heap

theorem step_acts {entries : List Entry} (sound : w.Sound)
    (here : w.focus = .enter t (.dispatch run place position entries chains) stack) (stepped : w.step plan = some w') :
    ∃ notes tasks w₁ next, Act plan w w.focus notes tasks w₁ next ∧ w' = w₁.focusOn next := by
  cases step_stepped sound.steady stepped with
  | acted act => exact ⟨_, _, _, _, act, rfl⟩
  | suspended busy _ => cases here.symm.trans busy
  | yielded busy => cases here.symm.trans busy
  | ended busy => cases here.symm.trans busy
  | handled idle _ => cases here.symm.trans idle
  | turned idle _ => cases here.symm.trans idle

/-- Each step of a group leads to the next member, with one more chain that is still to begin. -/
theorem Dispatches.dispatching (reached : Reachable plan u)
    (here : u.focus = .enter t (.dispatch run place 0 members []) stack)
    (dispatches : Dispatches plan run u members done rest w) :
    Reachable plan w ∧ members = done ++ rest ∧ ∃ chains, w.Dispatching run place t stack done rest chains := by
  induction dispatches with
  | start => exact ⟨reached, rfl, [], here, rfl, fun _ _ _ found => by cases found⟩
  | @called done rest n w w' _ fine stepped ih =>
    obtain ⟨before, split, chains, dispatching⟩ := ih
    refine ⟨before.move (.stepped stepped), by simp [split], ?_⟩
    obtain ⟨c, there⟩ := step_fine dispatching.here fine stepped
    obtain ⟨notes, tasks, w₁, next, act, rfl⟩ := step_acts before.sound dispatching.here stepped
    have same : Rests [] w₁ (w₁.focusOn next) := .of_futures rfl
    rcases act.dispatched dispatching.here with ⟨e, args, lost, -⟩ | ⟨call, _, c', rfl, -, rfl, stood⟩
    · obtain ⟨_, _⟩ := lost
      cases there
    · have due : Due w₁ run place done.length c' call.node.entry := .member stood
      exact ⟨_, dispatching.advance ((Rests.effect before.sound.roles act.effect).congr rfl) rfl (due.rests same)⟩
  | @spawned done rest inner w w' _ stepped ih =>
    obtain ⟨before, split, chains, dispatching⟩ := ih
    refine ⟨before.move (.stepped stepped), by simp [split], chains ++ [w.futures.size], ?_⟩
    rw [step, dispatching.here] at stepped
    obtain rfl := Option.some.inj stepped
    have made : Rests _ (w.note run (.spawned (place ++ [.entry done.length]))) _ :=
      .newTask (.branches run (place ++ [.entry done.length]) 0 inner)
    have rests : Rests _ w _ := made.congr_left rfl
    refine dispatching.advance (rests.congr rfl) rfl ?_
    exact .sequence ⟨false, (purpose?_newTask _).trans (if_pos rfl)⟩

/-! ### What is called -/

def callNotes (run : RunId) (given : List (Node × Entries)) : List Note :=
  (given.map fun x => (run, .called x.1.head x.2)).reverse

/-- Whether the calls and completions since a state are the given calls of a run. If `spared`, its args are as they
were, and so they were given to all these calls, and kept by the nodes. -/
structure Called (plan : Plan) (run : RunId) (u : World) (spared : Prop) (given : List (Node × Entries)) (w : World) :
    Prop where
  course : w.course = callNotes run given ++ u.course
  own : w.argsOf run = u.argsOf run
  args : spared → w.heap.dict (u.argsOf run) = u.heap.dict (u.argsOf run)
  same : spared → ∀ x ∈ given, x.2 = u.heap.dict (u.argsOf run) ∧ ∀ s, w.nodes[x.1.slot]? = some s →
    s.args = if plan.settings.snapshotArgs then u.heap.dict (u.argsOf run) else []

variable {spared : Prop} {given : List (Node × Entries)}

theorem Called.start : Called plan run u spared [] u := ⟨rfl, rfl, fun _ => rfl, fun _ _ member => by cases member⟩

theorem Called.aside (called : Called plan run u spared given w) (aside : Aside w w') :
    Called plan run u spared given w' where
  course := aside.course.trans called.course
  own := (argsOf_congr aside.args run).trans called.own
  args spares := by rw [aside.heap, called.args spares]
  same spares := aside.nodes ▸ called.same spares

theorem Called.step (called : Called plan run u spared given w)
    (here : w.focus = .enter t (.dispatch run place position (n.entry :: rest) chains) stack)
    (stepped : w.step plan = some w') (code : spared → (userCode plan w).2.heap.dict (u.argsOf run) =
      (userCode plan w).1.heap.dict (u.argsOf run)) :
    Called plan run u spared (given ++ [(n, w.heap.dict (w.argsOf run))]) w' := by
  obtain ⟨course, own, nodes, written⟩ := step_calls here stepped
  refine ⟨?_, own.trans called.own, fun spares => ?_, fun spares x member => ?_⟩
  · rw [course, called.course, callNotes, callNotes, List.map_append, List.reverse_append]
    rfl
  · rw [written _ (code spares), called.args spares]
  · have now : w.heap.dict (w.argsOf run) = u.heap.dict (u.argsOf run) := by rw [called.own, called.args spares]
    rw [now] at nodes
    constructor
    · rcases List.mem_append.mp member with before | last
      · exact (called.same spares x before).1
      · rw [List.mem_singleton.mp last]
        exact now
    · intro s found
      rw [nodes, Array.getElem?_modify] at found
      split at found
      · obtain ⟨s', -, rfl⟩ := Option.map_eq_some_iff.mp found
        rfl
      · rename_i other
        rcases List.mem_append.mp member with before | last
        · exact (called.same spares x before).2 s found
        · rw [List.mem_singleton.mp last] at other
          exact absurd rfl other

/-- The steps of a group call its nodes in their order, and nothing else is called or merged. -/
theorem Dispatches.calls (reached : Reachable plan u)
    (here : u.focus = .enter t (.dispatch run place 0 members []) stack)
    (dispatches : Dispatches plan run u members done rest w)
    (code : spared → ∀ done rest w, Dispatches plan run u members done rest w →
      (userCode plan w).2.heap.dict (u.argsOf run) = (userCode plan w).1.heap.dict (u.argsOf run)) :
    ∃ given, given.map Prod.fst = (Entry.nested done).own ∧ Called plan run u spared given w := by
  induction dispatches with
  | start => exact ⟨[], rfl, .start⟩
  | @called done rest n w w' before fine stepped ih =>
    obtain ⟨given, nodes, called⟩ := ih
    obtain ⟨-, -, chains, dispatching⟩ := before.dispatching reached here
    refine ⟨_, ?_, called.step dispatching.here stepped fun spares => code spares _ _ _ before⟩
    rw [List.map_append, nodes, Entry.own, Entry.own, List.filterMap_append]
    rfl
  | @spawned done rest inner w w' before stepped ih =>
    obtain ⟨given, nodes, called⟩ := ih
    obtain ⟨-, -, chains, dispatching⟩ := before.dispatching reached here
    refine ⟨given, ?_, ?_⟩
    · rw [nodes, Entry.own, Entry.own, List.filterMap_append]
      exact (List.append_nil _).symm
    · rw [World.step, dispatching.here] at stepped
      obtain rfl := Option.some.inj stepped
      exact called.aside (((Aside.note run rfl).trans (Aside.newTask _)).enter _)

/-! ### Members behind one that raises -/

/-- What is owed once a node has failed: of the node and what lies behind it in its group nothing is owed any more. -/
theorem total_lost {a : Account} {h : Head} {x : Raised} {pre notes : List Note} {next : Focus}
    (lost : Lost run h x pre t stack v notes w next) :
    a.total (w.focusOn next) = a.ofStack stack + a.waiting v + (a.paid pre + a.paid v.notes) := by
  obtain ⟨focus, paid⟩ := Account.lost_le (a := a) lost
  have waits := Account.waiting_effect (a := a) lost.effect
  have spent : a.paid (w.focusOn next).notes = a.paid notes + a.paid v.notes := by
    rw [show (w.focusOn next).notes = notes ++ v.notes from lost.effect.noted, Account.paid_append]
  have still : a.waiting (w.focusOn next) = a.waiting w := Account.waiting_futures rfl
  rw [Account.total, spent, paid, show (w.focusOn next).focus = next from rfl, focus, still, waits, List.map_nil,
    List.sum_nil, Nat.add_zero]

theorem uncalled_of_total {h : Head} (reached : Reachable plan v) (known : (v.record? run).isSome)
    (none : Account.total ⟨plan.tree, run, .call, h.slot⟩ v = 0) (moves : Moves plan v w) (args : Entries) :
    (run, .called h args) ∉ w.notes := by
  have still : Account.total ⟨plan.tree, run, .call, h.slot⟩ w = 0 ∧ Reachable plan w ∧ (w.record? run).isSome := by
    induction moves with
    | refl => exact ⟨none, reached, known⟩
    | tail _ move ih =>
      obtain ⟨none, reached, known⟩ := ih
      have total := Account.total_le (a := ⟨plan.tree, run, .call, h.slot⟩) reached.sound rfl known move
      exact ⟨Nat.le_zero.mp (none ▸ total), reached.move move, (move.grown reached.sound.steady).recorded known⟩
  intro called
  have pays : 0 < Account.paid ⟨plan.tree, run, .call, h.slot⟩ w.notes := Account.paid_pos called rfl rfl rfl
  have total := still.1
  rw [Account.total] at total
  omega

/-- A member behind one whose call raises is never called, nor is anything below it. -/
theorem never_called {x : Raised} {m : Node} (compiled : plan.tree.Compiled) (reached : Reachable plan v)
    (here : v.focus = .enter t (.dispatch run place position (n.entry :: later) chains) stack)
    (raises : (v.answer plan run n .concurrent).1 = .error x) (stepped : v.step plan = some w')
    (moves : Moves plan w' w) (within : m ∈ nodesOf later) (args : Entries) : (run, .called m.head args) ∉ w.notes := by
  let a : Account := ⟨plan.tree, run, .call, m.slot⟩
  have reached' : Reachable plan w' := reached.move (.stepped stepped)
  obtain ⟨o, there⟩ := step_raising here raises stepped
  obtain ⟨notes, tasks, w₁, next, act, rfl⟩ := step_acts reached.sound here stepped
  rcases act.dispatched here with ⟨e, given, lost, rfl⟩ | ⟨_, _, c, -, -, rfl, -⟩
  · have known : ((w₁.focusOn next).record? run).isSome := by
      have called : (run, Happening.called n.head given) ∈ (w₁.focusOn next).notes := by
        rw [show (w₁.focusOn next).notes = notes ++ v.notes from lost.effect.noted]
        cases lost
        simp
      exact reached'.known called
    refine uncalled_of_total reached' known ?_ moves args
    -- what the group owes for the members behind is dropped
    have owed : 0 < a.share run (nodesOf later) := by
      rw [Account.share, if_pos rfl]
      exact List.countP_pos_iff.mpr ⟨m, within, by simp [a]⟩
    have before : a.total v = a.share run n.nodes + a.share run (nodesOf later) + a.ofStack stack + a.waiting v
        + a.paid v.notes := by
      rw [Account.total, here, Account.ofFocus_enter, Account.ofRoutine, Account.share_entry]
    have after := total_lost (a := a) lost
    have cost := Account.called_le (a := a) run n given
    have bound : a.total v ≤ 1 := reached.total_le_one compiled rfl
    change a.total (w₁.focusOn next) = 0
    omega
  · cases there

/-! ### The whole group -/

/-- How a group that has come to its members `rest` ends: it waits for its chains, or the call of a member raises.
With it stand the members that had their turn, and those that never have one. -/
inductive DispatchEnds (plan : Plan) (run : RunId) (t : FutureId) (stack : List Frame) (v v' : World)
    (done : List Entry) : List Entry → List Entry → List Entry → Prop
  | joined {g : FutureId} (there : v'.focus = .enter t (.wait g) (.joining run :: stack)) :
      DispatchEnds plan run t stack v v' done [] done []
  | raised {n : Node} {later : List Entry} {x : Raised} {o : Outcome}
      (raises : (v.answer plan run n .concurrent).1 = .error x) (there : v'.focus = .leave t o stack) :
      DispatchEnds plan run t stack v v' done (n.entry :: later) (done ++ [n.entry]) later

theorem Dispatches.ends (reached : Reachable plan u)
    (here : u.focus = .enter t (.dispatch run place 0 members []) stack)
    (dispatches : Dispatches plan run u members done rest w) :
    ∃ done rest v v' called later, Dispatches plan run u members done rest v ∧ v.step plan = some v' ∧
      DispatchEnds plan run t stack v v' done rest called later ∧ members = called ++ later := by
  induction rest generalizing done w with
  | nil =>
    obtain ⟨-, split, chains, dispatching⟩ := dispatches.dispatching reached here
    have stepped : w.step plan = some (w.enterRoutine plan t stack (.dispatch run place done.length [] chains)) := by
      rw [step, dispatching.here]
    exact ⟨done, [], w, _, done, [], dispatches, stepped, .joined rfl, split⟩
  | cons e rest ih =>
    obtain ⟨-, split, chains, dispatching⟩ := dispatches.dispatching reached here
    have stepped : w.step plan =
        some (w.enterRoutine plan t stack (.dispatch run place done.length (e :: rest) chains)) := by
      rw [step, dispatching.here]
    cases e with
    | nested inner => exact ih (dispatches.spawned stepped)
    | node head outputs =>
      cases raises : (w.answer plan run ⟨head, outputs⟩ .concurrent).1 with
      | ok r => exact ih (dispatches.called (n := ⟨head, outputs⟩) (fun x => by rw [raises]; simp) stepped)
      | error x =>
        obtain ⟨o, there⟩ := step_raising (n := ⟨head, outputs⟩) dispatching.here raises stepped
        exact ⟨done, _, w, _, _, rest, dispatches, stepped, .raised (n := ⟨head, outputs⟩) raises there,
          by simp [split, Node.entry]⟩

/-- A group that a run has begun is dispatched at once. From step to step the machine goes on to the next member,
and the run does not settle; in the end the group waits for its chains, or the call of a member raises. Until then
nothing but its own nodes is called, in their order, nothing is merged, and no chain begins; what lies behind a member
whose call raises is never called. If no action writes the args meanwhile, all calls are given the same ones, and
the nodes keep these. -/
theorem group_is_dispatched_at_once {graph : Item} (compiled : Graph.compile graph = .ok plan.tree)
    (reached : Reachable plan u)
    (here : u.focus = .enter t (.dispatch run place 0 members []) stack) :
    let args := u.heap.dict (u.argsOf run)
    let spared := ∀ done rest w, Dispatches plan run u members done rest w →
      (userCode plan w).2.heap.dict (u.argsOf run) = (userCode plan w).1.heap.dict (u.argsOf run)
    (∀ done rest w, Dispatches plan run u members done rest w → w.isSettled run = false ∧ members = done ++ rest ∧
      ∃ chains, w.Dispatching run place t stack done rest chains) ∧
    ∃ done rest v v' called later given chains, Dispatches plan run u members done rest v ∧
      v.step plan = some v' ∧ DispatchEnds plan run t stack v v' done rest called later ∧ members = called ++ later ∧
      v.Dispatching run place t stack done rest chains ∧ (∀ c ∈ chains, v'.Idles c) ∧
      given.map Prod.fst = (Entry.nested called).own ∧ v'.course = callNotes run given ++ u.course ∧
      (spared → ∀ x ∈ given, x.2 = args ∧ ∀ s, v'.nodes[x.1.slot]? = some s →
        s.args = if plan.settings.snapshotArgs then args else []) ∧
      ∀ w, Moves plan v' w → ∀ m ∈ nodesOf later, ∀ given, (run, .called m.head given) ∉ w.notes := by
  intro args spared
  refine ⟨fun done rest w dispatches => ?_, ?_⟩
  · obtain ⟨before, split, chains, dispatching⟩ := dispatches.dispatching reached here
    exact ⟨(before.sound.steady.dispatch _ _ _ _ _ _ _ dispatching.here).1, split, chains, dispatching⟩
  · obtain ⟨done, rest, v, v', called, later, dispatches, stepped, ends, split⟩ := Dispatches.ends reached here .start
    obtain ⟨before, -, chains, dispatching⟩ := dispatches.dispatching reached here
    obtain ⟨given, nodes, calls⟩ := dispatches.calls reached here fun code : spared => code
    have idle (c : FutureId) (member : c ∈ chains) : v'.Idles c := by
      obtain ⟨i, small, rfl⟩ := List.getElem_of_mem member
      obtain ⟨notes, tasks, w₁, next, act, rfl⟩ := step_acts before.sound dispatching.here stepped
      have due := dispatching.due i _ _ (List.getElem?_eq_getElem (dispatching.length ▸ small))
        (List.getElem?_eq_getElem small)
      exact (due.rests ((Rests.effect before.sound.roles act.effect).congr rfl)).idles
    cases ends with
    | joined there =>
      have aside : Aside v v' := by
        rw [step, dispatching.here] at stepped
        obtain rfl := Option.some.inj stepped
        exact (Aside.newJoint chains).enter _
      have after := calls.aside aside
      exact ⟨done, [], v, v', done, [], given, chains, dispatches, stepped, .joined there, split, dispatching, idle,
        nodes, after.course, after.same, fun _ _ m within => by cases within⟩
    | @raised n later x o raises there =>
      have after := calls.step dispatching.here stepped fun spares => spares _ _ _ dispatches
      refine ⟨done, _, v, v', _, later, _, chains, dispatches, stepped, .raised raises there, split, dispatching,
        idle, ?_, after.course, after.same, fun w moves m within given => ?_⟩
      · rw [List.map_append, nodes, Entry.own, Entry.own, List.filterMap_append]
        rfl
      · exact never_called (Tree.compiled_of_compile compiled) before dispatching.here raises stepped moves within given

/-- A group of a node that reports at once, a sequence, a node that raises, and another node. -/
def volleyItems : List Item :=
  let action (label : String) (steps : List Step) : Item := .leaf (.object 0 0) (.function {
    label, steps, signature := [⟨"args", .standard, false⟩, ⟨"store", .standard, false⟩,
      ⟨"completion", .standard, false⟩] } {})
  [.list [action "a" [.call [.dict [(.text "k", .int 1)]]], .list [action "b" []],
    action "c" [.raise "ValueError" none], action "d" []]]

def volley : Plan where
  tree := Graph.compileItems volleyItems

/-- The group begins in a run, and so it comes to its end at once. -/
theorem raising_group_is_dispatched_at_once : ∃ (u : World) (t : FutureId) (members : List Entry) (stack : List Frame),
    Reachable volley u ∧ u.focus = .enter t (.dispatch 0 [.entry 0] 0 members []) stack ∧ members.length = 4 ∧
    ∃ done rest v v' called later, Dispatches volley 0 u members done rest v ∧ v.step volley = some v' ∧
      DispatchEnds volley 0 t stack v v' done rest called later ∧ members = called ++ later ∧
      ∀ w, Moves volley v' w → ∀ m ∈ nodesOf later, ∀ given, (0, .called m.head given) ∉ w.notes := by
  have compiled : Graph.compile (.list volleyItems) = .ok volley.tree := rfl
  have here : ∃ t members stack, (firstRun volley 8).focus = .enter t (.dispatch 0 [.entry 0] 0 members []) stack ∧
      members.length = 4 := ⟨_, _, _, rfl, rfl⟩
  obtain ⟨t, members, stack, here, four⟩ := here
  have reached := reachable_firstRun volley 8
  obtain ⟨-, done, rest, v, v', called, later, _, _, dispatches, stepped, ends, split, -, -, -, -, -, never⟩ :=
    group_is_dispatched_at_once compiled reached here
  exact ⟨_, t, members, stack, reached, here, four, done, rest, v, v', called, later, dispatches, stepped, ends, split,
    never⟩

end Conductor.World
