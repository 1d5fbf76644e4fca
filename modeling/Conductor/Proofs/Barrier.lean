import Conductor.Proofs.Order

/-!
# The order is kept

What an act turns to fits the aim of the task at work. So every move keeps the order of a run, and
in every reachable state the tasks of all runs go on to the aims that they began with.
-/

namespace Conductor

namespace World

variable {plan : Plan} {aim aim' : FutureId → Aim} {w w' : World} {run : RunId} {n : Node} {r : Result}
  {h : Head} {a goal : Aim} {place : Path} {before rest entries inner members : List Entry} {e : Entry}
  {call : Call} {body : Option FutureId} {t f : FutureId} {stack : List Frame} {chains : List FutureId}
  {notes pre : List Note} {tasks : List (FutureId × Routine)} {next : Focus}

theorem aim_foreign {r : Routine} (own : r.run? = none) : r.aim = .loose := by
  cases r <;> first | rfl | cases own

structure Between (plan : Plan) (aim aim' : FutureId → Aim) (notes : List Note) (w w' : World) : Prop where
  compiled : plan.tree.Compiled
  before : Reachable plan w
  reached : Reachable plan w'
  after : Later w w'
  stamped : w'.journal = notes.map w.stamp ++ w.journal
  same : ∀ t, t < w.futures.size → aim' t = aim t
  aimed : ∀ t r, w.futures.size ≤ t → w'.purpose? t = some (.task (.unstarted r) none false) →
    aim' t = r.aim
  ordered : Ordered plan aim w

namespace Between

section

variable {r : Routine} {o : Outcome} (b : Between plan aim aim' notes w w')
include b

theorem onward (busy : w.focus.task? = some t) (fits : Fits plan aim w (aim t) a stack) :
    Fits plan aim' w' (aim' t) a stack := by
  rw [b.same t (b.before.sound.tasks.focus t busy).2.lt]
  exact fits.later b.after b.same

theorem enters (busy : w.focus = .enter t r stack) :
    ∃ a, Opens plan aim w r a ∧ Fits plan aim' w' (aim' t) a stack := by
  have focused := b.ordered.focus
  rw [busy] at focused
  obtain ⟨a, opens, fits⟩ := focused
  exact ⟨a, opens, b.onward (by rw [busy]; rfl) fits⟩

theorem leaves (busy : w.focus = .leave t o stack) :
    ∃ a, (∀ v, o = .ok v → w.Holds a) ∧ Fits plan aim w (aim t) a stack := by
  have focused := b.ordered.focus
  rw [busy] at focused
  exact focused

theorem noted : w'.notes = notes ++ w.notes := notes_stamped b.stamped

theorem member {x : Note} (new : x ∈ notes) : x ∈ w'.notes := b.noted ▸ List.mem_append_left _ new

theorem known {args : Entries} (called : (run, .called h args) ∈ w.notes) : (w.record? run).isSome :=
  b.before.known called

theorem begun {args : Entries} (called : (run, .called h args) ∈ notes)
    (begun : (run, .began h body) ∈ w'.notes) : (run, .began h body) ∈ notes := by
  rw [b.noted] at begun
  refine (List.mem_append.mp begun).resolve_right fun old => ?_
  exact b.reached.unbegun b.compiled b.before b.noted called body old

theorem dates {args : Entries} (called : (run, .called call.node.head args) ∈ notes) (now : call.started = w.clock) :
    w'.Dates run call := by
  refine ⟨args, ?_⟩
  rw [b.stamped, now]
  exact List.mem_append_left _ (List.mem_map_of_mem called)

theorem called {args : Entries} (called : (run, .called call.node.head args) ∈ notes) (now : call.started = w.clock)
    (stood : Stood plan w' run call.node) (none : (run, .began call.node.head none) ∉ notes)
    (began : ∀ x, body = some x → (run, .began call.node.head (some x)) ∈ notes)
    (bodies : ∀ x, (run, .began call.node.head (some x)) ∈ notes →
      body = some x ∧ w'.Watched run call.node.head call.completion x)
    (report : ∀ x, body = some x → ∃ f, w'.first? call.completion = some f) :
    Tended plan w' run call body where
  dates := b.dates called now
  stood := stood
  began x own := b.member (began x own)
  ended begun := absurd (b.begun called begun) none
  bodies x begun := .inr (bodies x (b.begun called begun))
  report := report

end

/-! #### Branch lists -/

theorem driven (b : Between plan aim aim' notes w w') (busy : w.focus = .enter t (.drive run) stack) :
    Focused plan aim' w' (.enter t (.branches run [] 0 plan.tree.branches) (.drive run :: stack)) := by
  obtain ⟨a, opens, fits⟩ := b.enters busy
  cases opens with
  | played own => cases own
  | drive known =>
    have root : Reached plan w run [] [] plan.tree.branches := ⟨known, .root, by simp⟩
    exact ⟨_, .branches (root.later b.after) .whole, .drive (b.after.known known) fits⟩

theorem exhausted {position : Nat} (b : Between plan aim aim' notes w w')
    (busy : w.focus = .enter t (.branches run place position []) stack) :
    Focused plan aim' w' (.leave t (.ok .nothing) stack) := by
  obtain ⟨a, opens, fits⟩ := b.enters busy
  cases opens with
  | played own => cases own
  | branches reached spans =>
    exact ⟨a, fun _ _ => spans_holds (by simpa using spans) (reached.later b.after).past, fits⟩

theorem skipped {position : Nat} (b : Between plan aim aim' notes w w')
    (busy : w.focus = .enter t (.branches run place position entries) stack) (past : w.isSettled run) :
    Focused plan aim' w' (.leave t (.ok .nothing) stack) := by
  obtain ⟨a, opens, fits⟩ := b.enters busy
  cases opens with
  | played own => cases own
  | branches _ spans => exact ⟨a, fun _ _ => spans_settled spans (b.after.settled _ past), fits⟩

theorem single {position : Nat} (b : Between plan aim aim' notes w w')
    (busy : w.focus = .enter t (.branches run place position (n.entry :: rest)) stack) :
    Focused plan aim' w'
      (.enter t (.sequential run n) (.branches run place (position + 1) rest :: stack)) := by
  obtain ⟨a, opens, fits⟩ := b.enters busy
  cases opens with
  | played own => cases own
  | branches reached spans =>
    have here := reached.later b.after
    exact ⟨_, .sequential here, .branches here spans fits⟩

theorem grouped {position : Nat} (b : Between plan aim aim' notes w w')
    (busy : w.focus = .enter t (.branches run place position (.nested members :: rest)) stack) :
    Focused plan aim' w' (.enter t (.dispatch run (place ++ [.entry position]) 0 members [])
      (.branches run place (position + 1) rest :: stack)) := by
  obtain ⟨a, opens, fits⟩ := b.enters busy
  cases opens with
  | played own => cases own
  | branches reached spans =>
    have here := reached.later b.after
    have none : Chained aim' w' run [] [] := .nil
    exact ⟨_, .dispatch here none, .branches here spans fits⟩

/-! #### Sequential nodes -/

theorem sequenced {args : Entries} (b : Between plan aim aim' notes w (w'.focusOn next))
    (busy : w.focus = .enter t (.sequential run call.node) stack)
    (finished : Finished plan run call none [(run, .called call.node.head args)] t stack w notes w' next)
    (now : call.started = w.clock) : Focused plan aim' (w'.focusOn next) next := by
  obtain ⟨a, opens, fits⟩ := b.enters busy
  generalize named : call.node = node at opens
  cases opens with
  | played own => cases own
  | sequential reached =>
    subst named
    have called := finished.subset (List.mem_singleton_self _)
    refine finished_focused finished reached.known ?_ (by simp [Reported]) fits
    refine b.called called now ((reached.later b.after).stood (Entry.mem_own_self _)) ?_ (by simp) ?_ (by simp)
    · exact fun begun => by simpa using finished.of_began begun
    · exact fun x begun => by simpa using finished.of_began begun

theorem inside {args : Entries} {scope : Scope} {steps : List Step}
    (b : Between plan aim aim' [(run, .began call.node.head none), (run, .called call.node.head args)] w w')
    (busy : w.focus = .enter t (.sequential run call.node) stack) (now : call.started = w.clock) :
    Focused plan aim' w' (.enter t (.script scope ⟨[], steps⟩) (.returning run call :: stack)) := by
  obtain ⟨a, opens, fits⟩ := b.enters busy
  generalize named : call.node = node at opens
  cases opens with
  | played own => cases own
  | sequential reached =>
    subst named
    have called := List.mem_cons_of_mem (run, Happening.began call.node.head none)
      (List.mem_singleton_self (run, Happening.called call.node.head args))
    refine ⟨.loose, .played rfl, .inside (b.dates called now)
      ((reached.later b.after).stood (Entry.mem_own_self _)) (b.member List.mem_cons_self) ?_ fits⟩
    exact fun x begun => by simpa using b.begun called begun

theorem outside {args : Entries} (b : Between plan aim aim'
      [(run, .began call.node.head (some f)), (run, .called call.node.head args)] w w')
    (busy : w.focus = .enter t (.sequential run call.node) stack) (old : f < w'.futures.size)
    (unseen : ∀ j ∈ w'.jobs, j.source? ≠ some f) (now : call.started = w.clock) :
    Focused plan aim' w' (.enter t (.wait f) (.returning run call :: stack)) := by
  obtain ⟨a, opens, fits⟩ := b.enters busy
  generalize named : call.node = node at opens
  cases opens with
  | played own => cases own
  | sequential reached =>
    subst named
    have called := List.mem_cons_of_mem (run, Happening.began call.node.head (some f))
      (List.mem_singleton_self (run, Happening.called call.node.head args))
    refine ⟨_, .wait f, .outside (b.dates called now)
      ((reached.later b.after).stood (Entry.mem_own_self _)) (b.member List.mem_cons_self) ?_ ?_ old ?_ fits⟩
    · exact fun begun => by simpa using b.begun called begun
    · exact fun x begun => by simpa using b.begun called begun
    · rintro other ⟨node, c, explicit, waits⟩
      exact unseen _ waits rfl

/-! #### Groups -/

theorem joined {position : Nat} {g : FutureId} (b : Between plan aim aim' notes w w')
    (busy : w.focus = .enter t (.dispatch run place position [] chains) stack)
    (joint : w'.kind? g = some (.joint chains)) :
    Focused plan aim' w' (.enter t (.wait g) (.joining run :: stack)) := by
  obtain ⟨a, opens, fits⟩ := b.enters busy
  cases opens with
  | played own => cases own
  | dispatch _ chained =>
    rw [List.append_nil] at fits
    exact ⟨_, .wait g, .joining joint (chained.later b.after b.same) fits⟩

theorem undispatched {position : Nat} {x : Raised} (b : Between plan aim aim' notes w (w'.focusOn next))
    (busy : w.focus = .enter t (.dispatch run place position members chains) stack)
    (lost : Lost run h x pre t stack w notes w' next) : Focused plan aim' (w'.focusOn next) next := by
  obtain ⟨a, opens, fits⟩ := b.enters busy
  cases opens with
  | played own => cases own
  | dispatch reached _ => exact lost_focused lost reached.known fits

theorem dispatched {position : Nat} {c : FutureId} (b : Between plan aim aim' notes w w')
    (busy : w.focus = .enter t (.dispatch run place position (e :: rest) chains) stack)
    (own : aim' c = .entry run e) (task : w'.kind? c = some .task) :
    Focused plan aim' w' (.enter t (.dispatch run place (position + 1) rest (chains ++ [c])) stack) ∧
      (∀ node, e = node.entry → Stood plan w' run node) ∧
      ∀ inner, e = .nested inner → Reached plan w' run (place ++ [.entry position]) [] inner := by
  obtain ⟨a, opens, fits⟩ := b.enters busy
  cases opens with
  | played own => cases own
  | dispatch reached chained =>
    have here := reached.later b.after
    refine ⟨⟨_, opens_dispatch here (chained.later b.after b.same) own task, fits⟩, ?_, ?_⟩
    · rintro node rfl
      exact here.stood (Entry.mem_own_nested.mpr (by simp))
    · rintro inner rfl
      exact here.into

/-! #### Members and selected branches -/

theorem asked (b : Between plan aim aim' notes w w') (busy : w.focus = .enter t (.member run call body) stack)
    (report : w'.first? call.completion = some f) :
    Focused plan aim' w' (.enter t (.wait f) (.completing run call body :: stack)) := by
  obtain ⟨a, opens, fits⟩ := b.enters busy
  cases opens with
  | played own => cases own
  | member tended _ => exact ⟨_, .wait _, .completing (tended.later b.after) report fits⟩

theorem present (b : Between plan aim aim' notes w w') (busy : w.focus = .enter t (.member run call body) stack) :
    w.first? call.completion ≠ none := by
  obtain ⟨a, opens, -⟩ := b.enters busy
  cases opens with
  | played own => cases own
  | member _ report => simp [report]

theorem unasked {x : Raised} (b : Between plan aim aim' notes w (w'.focusOn next))
    (busy : w.focus = .enter t (.member run call body) stack)
    (lost : Lost run h x pre t stack w notes w' next) : Focused plan aim' (w'.focusOn next) next := by
  obtain ⟨a, opens, fits⟩ := b.enters busy
  cases opens with
  | played own => cases own
  | member tended _ =>
    obtain ⟨args, called⟩ := tended.dates.called
    exact lost_focused lost (b.known called) fits

theorem missed {routine : Routine} {x : Raised} (b : Between plan aim aim' notes w w')
    (busy : w.focus = .enter t routine stack) : Focused plan aim' w' (.leave t (.error x) stack) := by
  obtain ⟨a, -, fits⟩ := b.enters busy
  exact ⟨a, fun _ ok => (nomatch ok), fits⟩

theorem unrouted (b : Between plan aim aim' notes w w') (busy : w.focus = .enter t (.follow run n r) stack)
    (null : r.path = .atom .null) : Focused plan aim' w' (.leave t (.ok .nothing) stack) := by
  obtain ⟨a, opens, fits⟩ := b.enters busy
  cases opens with
  | played own => cases own
  | follow _ _ _ => exact ⟨.branch run n r, fun _ _ => .inr (.inl null), fits⟩

theorem routed {declared : Key} (b : Between plan aim aim' notes w w')
    (busy : w.focus = .enter t (.follow run n r) stack) (selects : n.Selects r declared inner) :
    Focused plan aim' w' (.enter t (.branches run (n.path ++ [.output declared]) 0 inner) stack) := by
  obtain ⟨a, opens, fits⟩ := b.enters busy
  cases opens with
  | played own => cases own
  | follow known stood completed =>
    have list : Reached plan w run (n.path ++ [.output declared]) [] inner :=
      ⟨known, stood.selected completed selects, by simp⟩
    exact ⟨_, .branches (list.later b.after) (.selected selects), fits⟩

/-! #### Frames -/

theorem resolved {o o' : Outcome} (b : Between plan aim aim' notes w w')
    (busy : w.focus = .leave t o (.drive run :: stack))
    (settles : (w.record? run).isSome → ∀ v, o' = .ok v → w'.isSettled run) :
    Focused plan aim' w' (.leave t o' stack) := by
  obtain ⟨a, -, fits⟩ := b.leaves busy
  cases fits with
  | played own _ => cases own
  | drive known rest =>
    exact ⟨.whole run, fun v ok => settles known v ok, b.onward (by rw [busy]; rfl) rest⟩

theorem resumed {v : Yield} {position : Nat} (b : Between plan aim aim' notes w w')
    (busy : w.focus = .leave t (.ok v) (.branches run place position rest :: stack)) :
    Focused plan aim' w' (.enter t (.branches run place position rest) stack) := by
  obtain ⟨a, holds, fits⟩ := b.leaves busy
  cases fits with
  | played own _ => cases own
  | branches reached spans rest =>
    have past := Over.later b.after (holds v rfl)
    exact ⟨_, opens_advance (reached.later b.after) past spans, b.onward (by rw [busy]; rfl) rest⟩

theorem returned {v : Yield} (b : Between plan aim aim' notes w (w'.focusOn next))
    (busy : w.focus = .leave t (.ok v) (.returning run call :: stack))
    (finished : Finished plan run call none [(run, .ended call.node.head)] t stack w notes w' next) :
    Focused plan aim' (w'.focusOn next) next := by
  obtain ⟨a, holds, fits⟩ := b.leaves busy
  have ended := b.member (finished.subset (List.mem_singleton_self _))
  have task : w.focus.task? = some t := by rw [busy]; rfl
  cases fits with
  | played own _ => cases own
  | inside dates stood _ none rest =>
    obtain ⟨args, called⟩ := dates.called
    refine finished_focused finished (b.known called) ⟨dates.later b.after,
      stood.later b.after, by simp, fun _ => ended, fun x begun => ?_, by simp⟩ (by simp [Reported])
      (b.onward task rest)
    exact absurd (b.after.begun _ _ _ _ called begun) (none x)
  | outside dates stood _ none only old unawaited rest =>
    obtain ⟨args, called⟩ := dates.called
    refine finished_focused finished (b.known called) ⟨dates.later b.after,
      stood.later b.after, by simp, fun _ => ended, fun x begun => .inl ?_, by simp⟩ (by simp [Reported])
      (b.onward task rest)
    obtain rfl := only x (b.after.begun _ _ _ _ called begun)
    obtain ⟨v', value⟩ := holds v rfl
    exact ⟨_, b.after.grown.settlements x _ value,
      fun other waits => unawaited other (b.after.awaited other x old waits), fun e other => (nomatch other)⟩

theorem gathered {v : Yield} (b : Between plan aim aim' notes w w')
    (busy : w.focus = .leave t (.ok v) (.joining run :: stack)) :
    Focused plan aim' w' (.leave t (.ok .nothing) stack) := by
  obtain ⟨a, holds, fits⟩ := b.leaves busy
  cases fits with
  | played own _ => cases own
  | joining joint chained rest =>
    have all := chained_succeeded b.before.sound b.ordered chained joint (holds v rfl)
    exact ⟨.entry run _, fun _ _ => Over.later b.after (over_nested all), b.onward (by rw [busy]; rfl) rest⟩

theorem completed {v : Yield} (b : Between plan aim aim' notes w (w'.focusOn next))
    (busy : w.focus = .leave t (.ok v) (.completing run call body :: stack))
    (finished : Finished plan run call body [] t stack w notes w' next) :
    Focused plan aim' (w'.focusOn next) next := by
  obtain ⟨a, holds, fits⟩ := b.leaves busy
  cases fits with
  | played own _ => cases own
  | completing tended report rest =>
    obtain ⟨args, called⟩ := tended.dates.called
    refine finished_focused finished (b.known called) (tended.later b.after) (fun x _ => ?_)
      (b.onward (by rw [busy]; rfl) rest)
    exact ⟨_, b.after.grown.firsts _ _ report, (holds v rfl).grown b.after.grown⟩

theorem followed {v : Yield} (b : Between plan aim aim' [(run, .followed call.node.head)] w w')
    (busy : w.focus = .leave t (.ok v) (.following run call none :: stack)) :
    Focused plan aim' w' (.leave t (.ok .nothing) stack) := by
  obtain ⟨a, holds, fits⟩ := b.leaves busy
  cases fits with
  | played own _ => cases own
  | following tended _ completed rest =>
    refine ⟨_, fun _ _ => ?_, b.onward (by rw [busy]; rfl) rest⟩
    rcases holds v rfl with past | routed
    · exact .inl (b.after.settled run past)
    · have here := tended.later b.after
      refine .inr (.of_routed ⟨here.dates.called, ⟨_, b.after.noted completed⟩,
        b.member (List.mem_singleton_self _), here.ended, fun x begun => ?_⟩ (routed.later b.after))
      exact (here.bodies x begun).resolve_right fun watched => (nomatch watched.1)

theorem lingering {v : Yield} {x : FutureId} {focus : Focus}
    (b : Between plan aim aim' [(run, .followed call.node.head)] w
      ((((w.note run (.followed call.node.head)).newFuture (.plain (.waiter x))).2.onSettled x
        (.release w.futures.size x)).focusOn focus))
    (busy : w.focus = .leave t (.ok v) (.following run call (some x) :: stack)) :
    Focused plan aim' ((((w.note run (.followed call.node.head)).newFuture (.plain (.waiter x))).2.onSettled
        x (.release w.futures.size x)).focusOn focus)
      (.enter t (.wait w.futures.size) (.ending run call x :: stack)) := by
  generalize noted : w.note run (.followed call.node.head) = w₁ at b ⊢
  have size : w.futures.size = w₁.futures.size := by rw [← noted]; rfl
  have waiter : ((w₁.newFuture (.plain (.waiter x))).2.onSettled x
      (.release w.futures.size x)).kind? w.futures.size = some (.plain (.waiter x)) := by
    refine Grown.onSettled.kinds _ _ ?_
    rw [kind?, purpose?_newFuture, if_pos size]
    rfl
  obtain ⟨a, holds, fits⟩ := b.leaves busy
  cases fits with
  | played own _ => cases own
  | following tended reported completed rest =>
    exact ⟨_, .wait _, .ending waiter (tended.later b.after) (Reported.later b.after reported)
      (b.after.noted completed) (b.member (List.mem_singleton_self _))
      ((holds v rfl).imp (b.after.settled run) (Routed.later b.after)) (b.onward (by rw [busy]; rfl) rest)⟩

theorem finished {v : Yield} {x : FutureId} (b : Between plan aim aim' notes w w')
    (busy : w.focus = .leave t (.ok v) (.ending run call x :: stack)) :
    Focused plan aim' w' (.leave t (.ok .nothing) stack) := by
  obtain ⟨a, holds, fits⟩ := b.leaves busy
  cases fits with
  | played own _ => cases own
  | ending waiter tended reported completed followed routed rest =>
    refine ⟨.entry run _, fun _ _ => Over.later b.after ?_, b.onward (by rw [busy]; rfl) rest⟩
    exact tended.finish b.before.freed waiter (holds v rfl) reported completed followed routed

/-- A failure that a node handles has settled the run unless it goes on upwards. -/
theorem handled {frame : Frame} {o o' : Outcome} {args : Entries} {x : Raised}
    (b : Between plan aim aim' notes w (w'.focusOn (.leave t o' stack)))
    (busy : w.focus = .leave t o (frame :: stack)) (losing : Losing run x notes w w' o')
    (called : (run, .called h args) ∈ w.notes) (rest : Fits plan aim w (aim t) (.entry run e) stack) :
    Focused plan aim' (w'.focusOn (.leave t o' stack)) (.leave t o' stack) :=
  ⟨.entry run e, fun _ ok => .inl (losing.past (b.known called) ok), b.onward (by rw [busy]; rfl) rest⟩

theorem lost {frame : Frame} {o : Outcome} {args : Entries} {x : Raised}
    (b : Between plan aim aim' notes w (w'.focusOn next)) (busy : w.focus = .leave t o (frame :: stack))
    (lost : Lost run h x pre t stack w notes w' next) (called : (run, .called h args) ∈ w.notes)
    (rest : Fits plan aim w (aim t) (.entry run e) stack) : Focused plan aim' (w'.focusOn next) next :=
  lost_focused lost (b.known called) (b.onward (by rw [busy]; rfl) rest)

theorem unreturned {o : Outcome} {x : Raised} (b : Between plan aim aim' notes w (w'.focusOn next))
    (busy : w.focus = .leave t o (.returning run call :: stack))
    (lost : Lost run call.node.head x pre t stack w notes w' next) :
    Focused plan aim' (w'.focusOn next) next := by
  obtain ⟨a, -, fits⟩ := b.leaves busy
  cases fits with
  | played own _ => cases own
  | inside dates _ _ _ rest =>
    obtain ⟨args, called⟩ := dates.called
    exact b.lost busy lost called rest
  | outside dates _ _ _ _ _ _ rest =>
    obtain ⟨args, called⟩ := dates.called
    exact b.lost busy lost called rest

theorem uncompleted {o : Outcome} {x : Raised} (b : Between plan aim aim' notes w (w'.focusOn next))
    (busy : w.focus = .leave t o (.completing run call body :: stack))
    (lost : Lost run call.node.head x pre t stack w notes w' next) :
    Focused plan aim' (w'.focusOn next) next := by
  obtain ⟨a, -, fits⟩ := b.leaves busy
  cases fits with
  | played own _ => cases own
  | completing tended _ rest =>
    obtain ⟨args, called⟩ := tended.dates.called
    exact b.lost busy lost called rest

theorem unfollowed {o o' : Outcome} {x : Raised}
    (b : Between plan aim aim' notes w (w'.focusOn (.leave t o' stack)))
    (busy : w.focus = .leave t o (.following run call body :: stack))
    (losing : Losing run x notes w w' o') :
    Focused plan aim' (w'.focusOn (.leave t o' stack)) (.leave t o' stack) := by
  obtain ⟨a, -, fits⟩ := b.leaves busy
  cases fits with
  | played own _ => cases own
  | following tended _ _ rest =>
    obtain ⟨args, called⟩ := tended.dates.called
    exact b.handled busy losing called rest

theorem unfinished {o o' : Outcome} {x : Raised} {y : FutureId}
    (b : Between plan aim aim' notes w (w'.focusOn (.leave t o' stack)))
    (busy : w.focus = .leave t o (.ending run call y :: stack)) (losing : Losing run x notes w w' o') :
    Focused plan aim' (w'.focusOn (.leave t o' stack)) (.leave t o' stack) := by
  obtain ⟨a, -, fits⟩ := b.leaves busy
  cases fits with
  | played own _ => cases own
  | ending _ tended _ _ _ _ rest =>
    obtain ⟨args, called⟩ := tended.dates.called
    exact b.handled busy losing called rest

theorem passed {frame : Frame} {o : Outcome} {x : Raised} (b : Between plan aim aim' notes w w')
    (busy : w.focus = .leave t o (frame :: stack))
    (own : (∃ place position rest, frame = .branches run place position rest) ∨ frame = .joining run) :
    Focused plan aim' w' (.leave t (.error x) stack) := by
  obtain ⟨a, -, fits⟩ := b.leaves busy
  rcases own with ⟨place, position, rest, rfl⟩ | rfl
  · cases fits with
    | played own _ => cases own
    | branches _ _ rest => exact ⟨_, fun _ ok => (nomatch ok), b.onward (by rw [busy]; rfl) rest⟩
  · cases fits with
    | played own _ => cases own
    | joining _ _ rest => exact ⟨_, fun _ ok => (nomatch ok), b.onward (by rw [busy]; rfl) rest⟩

theorem delivered {s : Settlement} (b : Between plan aim aim' notes w w')
    (busy : w.focus = .enter t (.wait f) stack) (settled : w.settlement? f = some s) :
    Focused plan aim' w' (.leave t (w.deliver s).1 stack) := by
  obtain ⟨a, opens, fits⟩ := b.enters busy
  refine ⟨a, fun v ok => ?_, fits⟩
  cases opens with
  | played _ => trivial
  | wait _ =>
    have value : s = .value v := by
      unfold deliver at ok
      split at ok <;> cases ok
      rfl
    exact ⟨v, b.after.grown.settlements f _ (value ▸ settled)⟩

/-! #### Chains of a group -/

theorem chained {position : Nat} {w₁ : World} {r : Routine} {focus : Focus}
    (b : Between plan aim aim' notes w ((w₁.newTask r).2.focusOn focus))
    (busy : w.focus = .enter t (.dispatch run place position (e :: rest) chains) stack)
    (larger : w.futures.size ≤ w₁.futures.size) (own : r.aim = .entry run e) :
    Focused plan aim' ((w₁.newTask r).2.focusOn focus)
        (.enter t (.dispatch run place (position + 1) rest (chains ++ [w₁.futures.size])) stack) ∧
      (∀ node, e = node.entry → Stood plan ((w₁.newTask r).2.focusOn focus) run node) ∧
      ∀ inner, e = .nested inner →
        Reached plan ((w₁.newTask r).2.focusOn focus) run (place ++ [.entry position]) [] inner := by
  refine b.dispatched busy ?_ (kind_newTask (w := w₁) r)
  rw [← own]
  exact b.aimed w₁.futures.size r larger ((purpose?_newTask (w := w₁) r).trans (if_pos rfl))

theorem plain {position : Nat} {args : Entries} {w₁ : World} {focus : Focus}
    (b : Between plan aim aim' [(run, .called call.node.head args)] w
      ((w₁.newTask (.member run call none)).2.focusOn focus))
    (busy : w.focus = .enter t (.dispatch run place position (call.node.entry :: rest) chains) stack)
    (effect : Effect [(run, .called call.node.head args)] [] w w₁)
    (report : w₁.first? call.completion = some f) (now : call.started = w.clock) :
    Focused plan aim' ((w₁.newTask (.member run call none)).2.focusOn focus)
        (.enter t (.dispatch run place (position + 1) rest (chains ++ [w₁.futures.size])) stack) ∧
      Opens plan aim' ((w₁.newTask (.member run call none)).2.focusOn focus) (.member run call none)
        (.entry run call.node.entry) := by
  obtain ⟨focused, stood, -⟩ := b.chained busy (Grown.effect effect).size_le rfl
  have report' := (Grown.newTask (w := w₁) (.member run call none)).firsts _ _ report
  have called : (run, Happening.called call.node.head args) ∈
    [(run, Happening.called call.node.head args)] := List.mem_singleton_self _
  exact ⟨focused, .member (b.called called now (stood _ rfl) (by simp) (by simp) (by simp) (by simp)) report'⟩

theorem watched {position : Nat} {args : Entries} {w₁ : World} {x : FutureId} {explicit : Bool}
    {bodies : List (FutureId × Routine)} {focus : Focus}
    (b : Between plan aim aim' [(run, .began call.node.head (some x)), (run, .called call.node.head args)] w
      ((w₁.chainMember run call explicit x).2.focusOn focus))
    (busy : w.focus = .enter t (.dispatch run place position (call.node.entry :: rest) chains) stack)
    (effect : Effect [(run, .called call.node.head args)] bodies w w₁)
    (report : w₁.first? call.completion = some f) (new : w.futures.size ≤ x)
    (made : x < w₁.futures.size) (unseen : ∀ j ∈ w₁.jobs, j.source? ≠ some x) (now : call.started = w.clock) :
    Focused plan aim' ((w₁.chainMember run call explicit x).2.focusOn focus)
        (.enter t (.dispatch run place (position + 1) rest (chains ++ [w₁.futures.size])) stack) ∧
      Opens plan aim' ((w₁.chainMember run call explicit x).2.focusOn focus)
        (.member run call (some x)) (.entry run call.node.entry) := by
  have size : ((w₁.note run (.began call.node.head (some x))).onSettled x
      (.bodyEnded run call.node call.completion explicit x)).futures.size = w₁.futures.size :=
    size_onSettled
  obtain ⟨focused, stood, -⟩ := b.chained busy (size ▸ (Grown.effect effect).size_le) rfl
  rw [size] at focused
  have chained := chainMember_effect run call explicit unseen
  have report' := (Grown.effect chained).firsts _ _ report
  have called : (run, Happening.called call.node.head args) ∈
      [(run, Happening.began call.node.head (some x)), (run, Happening.called call.node.head args)] :=
    List.mem_cons_of_mem _ (List.mem_singleton_self _)
  refine ⟨focused, .member (b.called called now (stood _ rfl) (by simp) (by simp) (fun y begun => ?_)
    fun _ _ => ⟨f, report'⟩) report'⟩
  obtain rfl : y = x := by simpa using begun
  exact ⟨rfl, watched_chainMember b.before.sound b.before.freed (effect.trans chained) new made⟩

theorem spawned {position : Nat} {focus : Focus}
    (b : Between plan aim aim' notes w (((w.note run (.spawned (place ++ [.entry position]))).newTask
      (.branches run (place ++ [.entry position]) 0 inner)).2.focusOn focus))
    (busy : w.focus = .enter t (.dispatch run place position (.nested inner :: rest) chains) stack) :
    Focused plan aim' (((w.note run (.spawned (place ++ [.entry position]))).newTask
      (.branches run (place ++ [.entry position]) 0 inner)).2.focusOn focus)
        (.enter t (.dispatch run place (position + 1) rest (chains ++ [w.futures.size])) stack) ∧
      Opens plan aim' (((w.note run (.spawned (place ++ [.entry position]))).newTask
        (.branches run (place ++ [.entry position]) 0 inner)).2.focusOn focus)
        (.branches run (place ++ [.entry position]) 0 inner) (.entry run (.nested inner)) := by
  generalize made : w.note run (.spawned (place ++ [.entry position])) = w₁ at b ⊢
  have size : w₁.futures.size = w.futures.size := by rw [← made]; rfl
  obtain ⟨focused, -, reached⟩ := b.chained busy (Nat.le_of_eq size.symm) rfl
  rw [size] at focused
  exact ⟨focused, .branches (reached inner rfl) .whole⟩

end Between

/-- An act turns to something that fits the aim of its task, and begins tasks that reach theirs. -/
theorem Between.act (b : Between plan aim aim' notes w (w'.focusOn next))
    (act : Act plan w w.focus notes tasks w' next) :
    Focused plan aim' (w'.focusOn next) next ∧
      ∀ x ∈ tasks, Opens plan aim' (w'.focusOn next) x.2 x.2.aim := by
  have idle : ∀ x ∈ ([] : List (FutureId × Routine)), Opens plan aim' (w'.focusOn next) x.2 x.2.aim := by
    simp
  generalize busy : w.focus = focus at act
  cases act with
  | played own other _ plays =>
    obtain ⟨a, opens, fits⟩ := b.enters busy
    obtain rfl := opens_foreign opens own other
    exact ⟨plays_focused plays fits, idle⟩
  | replayed own _ plays =>
    obtain ⟨a, -, fits⟩ := b.leaves busy
    exact ⟨plays_focused plays (b.onward (by rw [busy]; rfl) (fits_foreign_frame fits own)), idle⟩
  | launched own other _ records _ _ =>
    obtain ⟨a, opens, fits⟩ := b.enters busy
    obtain rfl := opens_foreign opens own other
    refine ⟨⟨.loose, .played rfl, .played rfl fits⟩, fun x member => ?_⟩
    obtain rfl := List.mem_singleton.mp member
    have known : (w'.record? w.records.size).isSome := by simp [record?, records]
    exact .drive known
  | delivered settled => exact ⟨b.delivered busy settled, idle⟩
  | driven => exact ⟨b.driven busy, idle⟩
  | exhausted => exact ⟨b.exhausted busy, idle⟩
  | skipped past => exact ⟨b.skipped busy past, idle⟩
  | single _ _ => exact ⟨b.single busy, idle⟩
  | grouped _ => exact ⟨b.grouped busy, idle⟩
  | sequenced _ _ finished now => exact ⟨b.sequenced busy finished now, idle⟩
  | inside _ _ _ now => exact ⟨b.inside busy now, idle⟩
  | outside _ _ _ _ own unseen now => exact ⟨b.outside busy (purpose?_lt own) unseen now, idle⟩
  | joined _ _ => exact ⟨b.joined busy (kind_newJoint _), idle⟩
  | undispatched _ lost => exact ⟨b.undispatched busy lost, idle⟩
  | plain _ _ effect report _ _ now =>
    obtain ⟨focused, opens⟩ := b.plain busy effect report now
    exact ⟨focused, List.forall_mem_singleton.mpr opens⟩
  | watched _ _ _ effect scripts report new made unseen _ _ now =>
    obtain ⟨focused, opens⟩ := b.watched busy effect report new made unseen now
    refine ⟨focused, List.forall_mem_cons.mpr ⟨opens, fun x script => ?_⟩⟩
    obtain ⟨foreign, -⟩ := scripts x script
    rw [aim_foreign foreign]
    exact .played foreign
  | spawned _ =>
    obtain ⟨focused, opens⟩ := b.spawned busy
    exact ⟨focused, List.forall_mem_singleton.mpr opens⟩
  | asked report => exact ⟨b.asked busy report, idle⟩
  | absent none => exact absurd none (b.present busy)
  | unasked lost => exact ⟨b.unasked busy lost, idle⟩
  | missed _ _ _ => exact ⟨b.missed busy, idle⟩
  | unrouted null => exact ⟨b.unrouted busy null, idle⟩
  | routed given selects route => exact ⟨b.routed busy ⟨given, _, selects, route⟩, idle⟩
  | resolved _ _ _ settles => exact ⟨b.resolved busy fun known _ _ => settles known, idle⟩
  | resumed => exact ⟨b.resumed busy, idle⟩
  | returned finished => exact ⟨b.returned busy finished, idle⟩
  | gathered => exact ⟨b.gathered busy, idle⟩
  | completed finished => exact ⟨b.completed busy finished, idle⟩
  | followed => exact ⟨b.followed busy, idle⟩
  | lingering => exact ⟨b.lingering busy, idle⟩
  | finished => exact ⟨b.finished busy, idle⟩
  | rejected losing => exact ⟨b.resolved busy fun known _ ok => losing.past known ok, idle⟩
  | unreturned lost => exact ⟨b.unreturned busy lost, idle⟩
  | uncompleted lost => exact ⟨b.uncompleted busy lost, idle⟩
  | unfollowed losing => exact ⟨b.unfollowed busy losing.toLosing, idle⟩
  | unfinished losing => exact ⟨b.unfinished busy losing.toLosing, idle⟩
  | abandoned => exact ⟨b.passed busy (.inl ⟨_, _, _, rfl⟩), idle⟩
  | ungathered => exact ⟨b.passed busy (.inr rfl), idle⟩


/-! ### Moves -/

def aims (aim : FutureId → Aim) (w w' : World) (t : FutureId) : Aim :=
  if t < w.futures.size then aim t else
    match w'.purpose? t with
    | some (.task (.unstarted r) _ _) => r.aim
    | _ => .loose

theorem aims_old (old : t < w.futures.size) : aims aim w w' t = aim t := if_pos old

theorem aims_new {waiting : Option FutureId} {r : Routine} (new : w.futures.size ≤ t)
    (stands : w'.Stands t (.unstarted r) waiting) : aims aim w w' t = r.aim := by
  obtain ⟨m, own⟩ := stands
  rw [aims, if_neg (Nat.not_lt.mpr new), own]

namespace Ordered

variable (ordered : Ordered plan aim w) (after : Later w w')
include ordered after

theorem rests (rests : Rests tasks w w')
    (opens : ∀ x ∈ tasks, Opens plan (aims aim w w') w' x.2 x.2.aim)
    (made : ∀ x ∈ tasks, w.futures.size ≤ x.1) (focus : Focused plan (aims aim w w') w' w'.focus) :
    Ordered plan (aims aim w w') w' where
  unstarted t r waiting there := by
    rcases rests.stands t _ waiting there with before | ⟨r', own, -, member⟩
    · rw [aims_old before.lt]
      exact (ordered.unstarted t r waiting before).later after fun _ => aims_old
    · obtain rfl := Position.unstarted.inj own
      rw [aims_new (made _ member) there]
      exact opens _ member
  suspended t stack waiting there := by
    rcases rests.stands t _ waiting there with before | ⟨r', own, -, -⟩
    · obtain ⟨a, fits, waits⟩ := ordered.suspended t stack waiting before
      rw [aims_old before.lt]
      exact ⟨a, fits.later after fun _ => aims_old, waits⟩
    · cases own
  succeeded t kind done := by
    obtain ⟨v, there⟩ := done
    rw [rests.settled t kind] at there
    have old : t < w.futures.size := settlement?_lt there
    rw [aims_old old]
    exact (ordered.succeeded t (after.grown.kind_of_lt old kind) ⟨v, there⟩).later after
  focus := focus

/-- When a single task comes to stand elsewhere, that task has to be looked at. -/
theorem shifts {p : Position} {waiting : Option FutureId} (shifts : Shifts t p waiting w w') (old : t < w.futures.size)
    (started : ∀ r, p ≠ .unstarted r)
    (suspended : ∀ stack, p = .suspended stack → ∃ a, Fits plan aim w (aim t) a stack ∧
      (a = .loose ∨ ∃ f, waiting = some f ∧ a = .success f))
    (succeeded : w'.Succeeded t → w.Succeeded t ∨ w.Holds (aim t))
    (focus : Focused plan (aims aim w w') w' w'.focus) : Ordered plan (aims aim w w') w' where
  unstarted u r x there := by
    by_cases mine : u = t
    · exact absurd (Stands.unique (mine ▸ there) shifts.own).1.symm (started r)
    · have before := (shifts.others u _ x mine).mp there
      rw [aims_old before.lt]
      exact (ordered.unstarted u r x before).later after fun _ => aims_old
  suspended u stack x there := by
    by_cases mine : u = t
    · subst mine
      obtain ⟨rfl, rfl⟩ := there.unique shifts.own
      obtain ⟨a, fits, waits⟩ := suspended stack rfl
      rw [aims_old old]
      exact ⟨a, fits.later after fun _ => aims_old, waits⟩
    · have before := (shifts.others u _ x mine).mp there
      obtain ⟨a, fits, waits⟩ := ordered.suspended u stack x before
      rw [aims_old before.lt]
      exact ⟨a, fits.later after fun _ => aims_old, waits⟩
  succeeded u kind done := by
    by_cases mine : u = t
    · subst mine
      rw [aims_old old]
      rcases succeeded done with before | holds
      · exact (ordered.succeeded u (after.grown.kind_of_lt old kind) before).later after
      · exact holds.later after
    · obtain ⟨v, there⟩ := done
      rw [shifts.settled u mine] at there
      have old : u < w.futures.size := settlement?_lt there
      rw [aims_old old]
      exact (ordered.succeeded u (after.grown.kind_of_lt old kind) ⟨v, there⟩).later after
  focus := focus

omit ordered in
theorem focused {focus : Focus} (lt : ∀ t, focus.task? = some t → t < w.futures.size)
    (focused : Focused plan aim w focus) : Focused plan (aims aim w w') w' focus := by
  cases focus with
  | idle => trivial
  | enter t r stack =>
    obtain ⟨a, opens, fits⟩ := focused
    refine ⟨a, opens.later after fun _ => aims_old, ?_⟩
    rw [aims_old (lt t rfl)]
    exact fits.later after fun _ => aims_old
  | leave t o stack =>
    obtain ⟨a, holds, fits⟩ := focused
    refine ⟨a, fun v ok => (holds v ok).later after, ?_⟩
    rw [aims_old (lt t rfl)]
    exact fits.later after fun _ => aims_old

end Ordered

/-- A task that waits or makes way goes on to its aim when it is told of what it waits for. -/
theorem Opens.halted {waiting : Option FutureId} {r : Routine} (opens : Opens plan aim w r a)
    (halts : (∃ f, r = .wait f ∧ waiting = some f) ∨ r = .yield ∧ waiting = none) :
    a = .loose ∨ ∃ f, waiting = some f ∧ a = .success f := by
  rcases halts with ⟨f, rfl, rfl⟩ | ⟨rfl, rfl⟩
  · cases opens with
    | played _ => exact .inl rfl
    | wait _ => exact .inr ⟨f, rfl, rfl⟩
  · cases opens with
    | played _ => exact .inl rfl

theorem Ordered.move (h : Ordered plan aim w) (reached : Reachable plan w) (compiled : plan.tree.Compiled)
    (m : Move plan w w') : Ordered plan (aims aim w w') w' := by
  have after := m.later reached compiled
  have lt {t : FutureId} (busy : w.focus.task? = some t) : t < w.futures.size :=
    (reached.sound.tasks.focus t busy).2.lt
  cases m.turn reached.sound with
  | @acted notes tasks w₁ next act rests =>
    have between : Between plan aim (aims aim w (w₁.focusOn next)) notes w (w₁.focusOn next) :=
      ⟨compiled, reached, .move reached m, after, act.effect.stamped, fun _ => aims_old,
        fun t r new own => aims_new new ⟨false, own⟩, h⟩
    obtain ⟨focused, opens⟩ := between.act act
    exact h.rests after (rests.congr rfl) opens (fun x member => (act.effect.made x member).1) focused
  | @halted _ t r stack waiting busy halts shifts same idle =>
    obtain ⟨a, opens, fits⟩ := h.entered busy
    refine h.shifts after shifts (lt (by rw [busy]; rfl)) (fun _ => by simp) (fun stack' own => ?_)
      (fun done => .inl ?_) (by rw [idle]; trivial)
    · obtain rfl := Position.suspended.inj own
      exact ⟨a, fits, opens.halted halts⟩
    · obtain ⟨v, there⟩ := done
      exact ⟨v, (same t).symm.trans there⟩
  | @ended _ t o busy shifts value idle =>
    obtain ⟨a, holds, fits⟩ := h.left busy
    refine h.shifts after shifts (lt (by rw [busy]; rfl)) (fun _ => by simp) (fun _ own => by cases own)
      (fun done => .inr ?_) (by rw [idle]; trivial)
    obtain ⟨v, there⟩ := done
    cases fits with
    | base reaches =>
      rcases reaches with same | same <;> rw [same]
      · exact holds v (value v there)
      · trivial
  | @resumed _ t p waiting o idle stood shifts same heard goesOn =>
    refine h.shifts after shifts stood.lt (fun _ => by simp) (fun _ own => by cases own)
      (fun done => .inl ?_) ?_
    · obtain ⟨v, there⟩ := done
      exact ⟨v, (same t).symm.trans there⟩
    · rcases goesOn with ⟨r, rfl, ⟨v, -, focus⟩ | ⟨e, error, focus⟩⟩ | ⟨stack, rfl, focus⟩ <;> rw [focus]
      · refine Ordered.focused after (fun u own => ?_) ⟨_, h.unstarted t r waiting stood, .base (.inl rfl)⟩
        exact Option.some.inj own ▸ stood.lt
      · subst error
        refine Ordered.focused after (fun u own => ?_)
          ⟨aim t, fun _ ok => (nomatch ok), .base (.inl rfl)⟩
        exact Option.some.inj own ▸ stood.lt
      · obtain ⟨a, fits, waits⟩ := h.suspended t stack waiting stood
        refine Ordered.focused after (fun u own => ?_) ⟨a, fun v ok => ?_, fits⟩
        · exact Option.some.inj own ▸ stood.lt
        · rcases waits with rfl | ⟨f, rfl, rfl⟩
          · trivial
          · exact heard v ok f rfl
  | begun r caller =>
    have own : r.run? = none := by cases r <;> simp_all [Routine.isCaller, Routine.run?]
    refine h.rests after (.newTask r) ?_ (by simp) ?_
    · refine List.forall_mem_singleton.mpr ?_
      rw [aim_foreign own]
      exact .played own
    · rw [(newTask_sameRuns r).focus]
      exact Ordered.focused after (fun t busy => lt busy) h.focus
  | rested rests focus =>
    refine h.rests after rests (by simp) (by simp) ?_
    rw [focus]
    exact Ordered.focused after (fun t busy => lt busy) h.focus

theorem Ordered.fresh (h : w.Fresh) : Ordered plan (fun _ => .loose) w where
  unstarted t r waiting there := absurd there.lt (by simp [h.futures])
  suspended t stack waiting there := absurd there.lt (by simp [h.futures])
  succeeded _ _ _ := trivial
  focus := by rw [h.focus]; trivial

/-- In every reachable state all tasks go on to the aims that they began with. -/
theorem Reachable.ordered (reached : Reachable plan w) (compiled : plan.tree.Compiled) :
    ∃ aim, Ordered plan aim w := by
  induction reached with
  | fresh fresh => exact ⟨_, .fresh fresh⟩
  | move before m ih =>
    obtain ⟨aim, ordered⟩ := ih
    exact ⟨_, ordered.move before compiled m⟩

end World

end Conductor
