import Conductor.Proofs.Done

/-!
# The order of a run

Every routine has an aim, which is reached when it ends well, and every frame turns the aim of what it
waits for into one of its own. So a task that ends well has reached the aim that it began with. What a
routine or a frame of a run relies on, and the aims on a stack, fit each other in every reachable
state.
-/

namespace Conductor

/-- What is reached when a routine ends well. -/
inductive Aim where
  | loose
  /-- A run has settled. -/
  | whole (run : RunId)
  /-- A future has succeeded. -/
  | success (f : FutureId)
  /-- A run is over with an entry of a branch list. -/
  | entry (run : RunId) (e : Entry)
  /-- A run is over with what a result of a node selects. -/
  | branch (run : RunId) (n : Node) (r : Result)

def Routine.aim : Routine → Aim
  | .drive run => .whole run
  | .branches run _ _ entries => .entry run (.nested entries)
  | .member run call _ => .entry run call.node.entry
  | _ => .loose

inductive Aim.Spans : Aim → RunId → List Entry → Prop where
  | whole {run : RunId} {entries : List Entry} : Spans (.entry run (.nested entries)) run entries
  | selected {run : RunId} {n : Node} {r : Result} {declared : Key} {inner : List Entry}
      (selects : n.Selects r declared inner) : Spans (.branch run n r) run inner

namespace World

def Holds (w : World) : Aim → Prop
  | .loose => True
  | .whole run => w.isSettled run
  | .success f => w.Succeeded f
  | .entry run e => w.Over run e
  | .branch run n r => w.isSettled run ∨ w.Routed run n r

/-- Whether a run has come to an entry of an open list and is over with all entries before it. -/
structure Reached (plan : Plan) (w : World) (run : RunId) (place : Path) (before rest : List Entry) :
    Prop where
  known : (w.record? run).isSome
  list : Open plan w run place (before ++ rest)
  past : ∀ e ∈ before, w.Over run e

def Dates (w : World) (run : RunId) (call : Call) : Prop :=
  ∃ args, (run, call.started, .called call.node.head args) ∈ w.journal

theorem Dates.called {w : World} {run : RunId} {call : Call} (dates : w.Dates run call) :
    ∃ args, (run, .called call.node.head args) ∈ w.notes := by
  obtain ⟨args, member⟩ := dates
  exact ⟨args, List.mem_map_of_mem member⟩

/-- Whether a node is called, and what it began so far has ended well or is still watched. -/
structure Tended (plan : Plan) (w : World) (run : RunId) (call : Call) (body : Option FutureId) : Prop where
  dates : w.Dates run call
  stood : Stood plan w run call.node
  began : ∀ b, body = some b → (run, .began call.node.head (some b)) ∈ w.notes
  ended : (run, .began call.node.head none) ∈ w.notes → (run, .ended call.node.head) ∈ w.notes
  bodies : ∀ b, (run, .began call.node.head (some b)) ∈ w.notes → w.Fine run call.node.head b ∨
    body = some b ∧ w.Watched run call.node.head call.completion b
  report : ∀ b, body = some b → ∃ f, w.first? call.completion = some f

def Reported (w : World) (call : Call) (body : Option FutureId) : Prop :=
  ∀ b, body = some b → ∃ f, w.first? call.completion = some f ∧ w.Succeeded f

def Chained (aim : FutureId → Aim) (w : World) (run : RunId) (members : List Entry)
    (chains : List FutureId) : Prop :=
  List.Forall₂ (fun m c => aim c = .entry run m ∧ w.kind? c = some .task) members chains

variable (plan : Plan) (aim : FutureId → Aim)

/-- Whether a routine reaches an aim when it ends well, relying on what it relies on. -/
inductive Opens (w : World) : Routine → Aim → Prop where
  | played {r : Routine} (own : r.run? = none) : Opens w r .loose
  | wait (f : FutureId) : Opens w (.wait f) (.success f)
  | drive {run : RunId} (known : (w.record? run).isSome) : Opens w (.drive run) (.whole run)
  | branches {run : RunId} {place : Path} {before rest : List Entry} {a : Aim}
      (reached : Reached plan w run place before rest) (spans : a.Spans run (before ++ rest)) :
      Opens w (.branches run place before.length rest) a
  | sequential {run : RunId} {place : Path} {before rest : List Entry} {n : Node}
      (reached : Reached plan w run place before (n.entry :: rest)) :
      Opens w (.sequential run n) (.entry run n.entry)
  | dispatch {run : RunId} {place : Path} {before rest done members : List Entry}
      {chains : List FutureId}
      (reached : Reached plan w run place before (.nested (done ++ members) :: rest))
      (chained : Chained aim w run done chains) :
      Opens w (.dispatch run (place ++ [.entry before.length]) done.length members chains)
        (.entry run (.nested (done ++ members)))
  | member {run : RunId} {call : Call} {body : Option FutureId} {f : FutureId}
      (tended : Tended plan w run call body) (report : w.first? call.completion = some f) :
      Opens w (.member run call body) (.entry run call.node.entry)
  | follow {run : RunId} {n : Node} {r : Result} {payload : Entries}
      (known : (w.record? run).isSome) (stood : Stood plan w run n)
      (completed : (run, .completed n.head r payload) ∈ w.notes) :
      Opens w (.follow run n r) (.branch run n r)

/-- Whether a stack, once the aim of what it waits for is reached, goes on to an aim of its own. -/
inductive Fits (w : World) (goal : Aim) : Aim → List Frame → Prop where
  | base {a : Aim} (reaches : goal = a ∨ goal = .loose) : Fits w goal a []
  | played {frame : Frame} {stack : List Frame} {a : Aim} (own : frame.run? = none)
      (rest : Fits w goal .loose stack) : Fits w goal a (frame :: stack)
  | drive {run : RunId} {stack : List Frame} (known : (w.record? run).isSome)
      (rest : Fits w goal (.whole run) stack) :
      Fits w goal (.entry run (.nested plan.tree.branches)) (.drive run :: stack)
  | branches {run : RunId} {place : Path} {before entries : List Entry} {e : Entry} {a : Aim}
      {stack : List Frame} (reached : Reached plan w run place before (e :: entries))
      (spans : a.Spans run (before ++ e :: entries)) (rest : Fits w goal a stack) :
      Fits w goal (.entry run e) (.branches run place (before.length + 1) entries :: stack)
  | inside {run : RunId} {call : Call} {stack : List Frame}
      (dates : w.Dates run call) (stood : Stood plan w run call.node)
      (begun : (run, .began call.node.head none) ∈ w.notes)
      (none : ∀ b, (run, .began call.node.head (some b)) ∉ w.notes)
      (rest : Fits w goal (.entry run call.node.entry) stack) :
      Fits w goal .loose (.returning run call :: stack)
  | outside {run : RunId} {call : Call} {f : FutureId} {stack : List Frame}
      (dates : w.Dates run call) (stood : Stood plan w run call.node)
      (begun : (run, .began call.node.head (some f)) ∈ w.notes)
      (none : (run, .began call.node.head none) ∉ w.notes)
      (only : ∀ b, (run, .began call.node.head (some b)) ∈ w.notes → b = f)
      (old : f < w.futures.size) (unawaited : ∀ other, ¬ w.Awaits other f)
      (rest : Fits w goal (.entry run call.node.entry) stack) :
      Fits w goal (.success f) (.returning run call :: stack)
  | joining {run : RunId} {g : FutureId} {members : List Entry} {chains : List FutureId}
      {stack : List Frame} (joint : w.kind? g = some (.joint chains))
      (chained : Chained aim w run members chains) (rest : Fits w goal (.entry run (.nested members)) stack) :
      Fits w goal (.success g) (.joining run :: stack)
  | completing {run : RunId} {call : Call} {body : Option FutureId} {f : FutureId} {stack : List Frame}
      (tended : Tended plan w run call body) (report : w.first? call.completion = some f)
      (rest : Fits w goal (.entry run call.node.entry) stack) :
      Fits w goal (.success f) (.completing run call body :: stack)
  | following {run : RunId} {call : Call} {body : Option FutureId} {r : Result} {payload : Entries}
      {stack : List Frame} (tended : Tended plan w run call body) (reported : w.Reported call body)
      (completed : (run, .completed call.node.head r payload) ∈ w.notes)
      (rest : Fits w goal (.entry run call.node.entry) stack) :
      Fits w goal (.branch run call.node r) (.following run call body :: stack)
  | ending {run : RunId} {call : Call} {b g : FutureId} {r : Result} {payload : Entries}
      {stack : List Frame} (waiter : w.kind? g = some (.plain (.waiter b)))
      (tended : Tended plan w run call (some b)) (reported : w.Reported call (some b))
      (completed : (run, .completed call.node.head r payload) ∈ w.notes)
      (followed : (run, .followed call.node.head) ∈ w.notes)
      (routed : w.isSettled run ∨ w.Routed run call.node r)
      (rest : Fits w goal (.entry run call.node.entry) stack) :
      Fits w goal (.success g) (.ending run call b :: stack)

def Focused (w : World) : Focus → Prop
  | .idle => True
  | .enter t r stack => ∃ a, Opens plan aim w r a ∧ Fits plan aim w (aim t) a stack
  | .leave t o stack => ∃ a, (∀ v, o = .ok v → w.Holds a) ∧ Fits plan aim w (aim t) a stack

/-- Whether all tasks go on to the aims that they began with. -/
structure Ordered (w : World) : Prop where
  unstarted : ∀ t r waiting, w.Stands t (.unstarted r) waiting → Opens plan aim w r (aim t)
  suspended : ∀ t stack waiting, w.Stands t (.suspended stack) waiting →
    ∃ a, Fits plan aim w (aim t) a stack ∧ (a = .loose ∨ ∃ f, waiting = some f ∧ a = .success f)
  succeeded : ∀ t, w.kind? t = some .task → w.Succeeded t → w.Holds (aim t)
  focus : Focused plan aim w w.focus

variable {plan aim} {w w' : World} {run : RunId} {n : Node} {r : Result} {h : Head} {a goal : Aim}
  {place : Path} {before rest entries inner members : List Entry} {e : Entry} {call : Call}
  {body : Option FutureId} {t f : FutureId} {stack : List Frame} {aim' : FutureId → Aim}
  {chains : List FutureId} {notes pre : List Note} {tasks : List (FutureId × Routine)} {next : Focus}

theorem Ordered.entered {r : Routine} (ordered : Ordered plan aim w) (here : w.focus = .enter t r stack) :
    ∃ a, Opens plan aim w r a ∧ Fits plan aim w (aim t) a stack := by
  have focused := ordered.focus
  rwa [here] at focused

theorem Ordered.left {o : Outcome} (ordered : Ordered plan aim w) (here : w.focus = .leave t o stack) :
    ∃ a, (∀ v, o = .ok v → w.Holds a) ∧ Fits plan aim w (aim t) a stack := by
  have focused := ordered.focus
  rwa [here] at focused

/-! ### What stays -/

theorem Grown.recorded (grown : Grown w w') (known : (w.record? run).isSome) : (w'.record? run).isSome := by
  obtain ⟨r, found⟩ := Option.isSome_iff_exists.mp known
  have there := grown.outcomes run r.outcome (by simp [outcome?, found])
  obtain ⟨r', found', -⟩ := Option.map_eq_some_iff.mp there
  exact Option.isSome_iff_exists.mpr ⟨r', found'⟩

section Later

variable (after : Later w w')
include after

theorem Later.known (known : (w.record? run).isSome) : (w'.record? run).isSome :=
  after.grown.recorded known

theorem Holds.later (holds : w.Holds a) : w'.Holds a := by
  cases a with
  | loose => trivial
  | whole run => exact after.settled run holds
  | success f => exact holds.grown after.grown
  | entry run e => exact Over.later after holds
  | branch run n r => exact Or.imp (after.settled run) (Routed.later after) holds

theorem Reached.later (reached : Reached plan w run place before rest) :
    Reached plan w' run place before rest :=
  ⟨after.known reached.known, reached.list.later after, fun e member => (reached.past e member).later after⟩

theorem Dates.later (dates : w.Dates run call) : w'.Dates run call := by
  obtain ⟨args, member⟩ := dates
  exact ⟨args, after.grown.journal.subset member⟩

theorem Tended.later (tended : Tended plan w run call body) : Tended plan w' run call body := by
  obtain ⟨dates, stood, began, ended, bodies, report⟩ := tended
  obtain ⟨args, called⟩ := dates.called
  refine ⟨dates.later after, stood.later after, fun b own => after.noted (began b own),
    fun begun => ?_, fun b begun => ?_, fun b own => ?_⟩
  · exact after.noted (ended (after.begun _ _ _ _ called begun))
  · rcases bodies b (after.begun _ _ _ _ called begun) with fine | ⟨own, watched⟩
    · exact .inl (fine.later after)
    · obtain ⟨f, first⟩ := report b own
      exact .inr ⟨own, after.watched _ _ _ _ _ _ called first watched⟩
  · obtain ⟨f, first⟩ := report b own
    exact ⟨f, after.grown.firsts _ _ first⟩

theorem Reported.later (reported : w.Reported call body) : w'.Reported call body := by
  intro b own
  obtain ⟨f, first, done⟩ := reported b own
  exact ⟨f, after.grown.firsts _ _ first, done.grown after.grown⟩

variable (same : ∀ t, t < w.futures.size → aim' t = aim t)
include same

theorem Chained.later (chained : Chained aim w run members chains) :
    Chained aim' w' run members chains := by
  refine List.Forall₂.imp (fun m c own => ?_) chained
  exact ⟨(same c (kind?_lt own.2)).trans own.1, after.grown.kinds c _ own.2⟩

theorem Opens.later {r : Routine} (opens : Opens plan aim w r a) : Opens plan aim' w' r a := by
  cases opens with
  | played own => exact .played own
  | wait f => exact .wait f
  | drive known => exact .drive (after.known known)
  | branches reached spans => exact .branches (reached.later after) spans
  | sequential reached => exact .sequential (reached.later after)
  | dispatch reached chained => exact .dispatch (reached.later after) (chained.later after same)
  | member tended report => exact .member (tended.later after) (after.grown.firsts _ _ report)
  | follow known stood completed =>
    exact .follow (after.known known) (stood.later after) (after.noted completed)

theorem Fits.later (fits : Fits plan aim w goal a stack) : Fits plan aim' w' goal a stack := by
  induction fits with
  | base reaches => exact .base reaches
  | played own _ ih => exact .played own ih
  | drive known _ ih => exact .drive (after.known known) ih
  | branches reached spans _ ih => exact .branches (reached.later after) spans ih
  | inside dates stood begun none _ ih =>
    obtain ⟨args, called⟩ := dates.called
    refine .inside (dates.later after) (stood.later after) (after.noted begun) (fun b begun => ?_) ih
    exact none b (after.begun _ _ _ _ called begun)
  | outside dates stood begun none only old unawaited _ ih =>
    obtain ⟨args, called⟩ := dates.called
    refine .outside (dates.later after) (stood.later after) (after.noted begun) (fun begun => ?_)
      (fun b begun => ?_) (after.grown.known old) (fun other waits => ?_) ih
    · exact none (after.begun _ _ _ _ called begun)
    · exact only b (after.begun _ _ _ _ called begun)
    · exact unawaited other (after.awaited other _ old waits)
  | joining joint chained _ ih =>
    exact .joining (after.grown.kinds _ _ joint) (chained.later after same) ih
  | completing tended report _ ih =>
    exact .completing (tended.later after) (after.grown.firsts _ _ report) ih
  | following tended reported completed _ ih =>
    exact .following (tended.later after) (reported.later after) (after.noted completed) ih
  | ending waiter tended reported completed followed routed _ ih =>
    exact .ending (after.grown.kinds _ _ waiter) (tended.later after) (reported.later after)
      (after.noted completed) (after.noted followed) (routed.imp (after.settled _) (Routed.later after)) ih

end Later

/-! ### Acts -/

theorem Effect.settled (effect : Effect notes tasks w w') (past : w.isSettled run) : w'.isSettled run := by
  rcases effect.status run with same | ⟨before, -, -⟩
  · exact (isSettled_of_status same).trans past
  · rw [isSettled, before] at past
    cases past

/-- An ordinary failure settles its run, unless that has settled already. -/
theorem Losing.settles {e : Raised} {o : Outcome} (losing : Losing run e notes w w' o)
    (known : (w.record? run).isSome) (ordinary : e.fault.isOrdinary) : w'.isSettled run := by
  by_cases past : w.isSettled run
  · exact losing.effect.settled past
  · obtain ⟨ms, rejected⟩ := losing.rejects ordinary known (by simpa using past)
    rw [isSettled, rejected]
    rfl

theorem Losing.past {e : Raised} {o : Outcome} {v : Yield} (losing : Losing run e notes w w' o)
    (known : (w.record? run).isSome) (ok : o = .ok v) : w'.isSettled run := by
  refine losing.settles known ?_
  by_contra fatal
  have handed := (losing.fatal (by simpa using fatal)).2
  rw [ok] at handed
  cases handed

theorem lost_focused {x : Raised} (lost : Lost run h x pre t stack w notes w' next)
    (known : (w.record? run).isSome)
    (fits : Fits plan aim (w'.focusOn next) (aim t) (.entry run e) stack) :
    Focused plan aim (w'.focusOn next) next := by
  cases lost with
  | mk first rest =>
    refine ⟨.entry run e, fun v ok => .inl ?_, fits⟩
    exact rest.past ((Grown.effect (first.trans (.note (h := .failed h x) trivial))).recorded known) ok

theorem finished_focused (finished : Finished plan run call body pre t stack w notes w' next)
    (known : (w.record? run).isSome) (tended : Tended plan (w'.focusOn next) run call body)
    (reported : Reported (w'.focusOn next) call body)
    (fits : Fits plan aim (w'.focusOn next) (aim t) (.entry run call.node.entry) stack) :
    Focused plan aim (w'.focusOn next) next := by
  have noted : (w'.focusOn next).notes = notes ++ w.notes := finished.total.noted
  have known' := (Grown.effect finished.total).recorded known
  cases finished with
  | lost lost => exact lost_focused lost known fits
  | moot _ past => exact ⟨.entry run call.node.entry, fun _ _ => .inl past, fits⟩
  | followed _ _ _ _ =>
    have completed := noted ▸ List.mem_append_left w.notes (List.mem_cons_self ..)
    exact ⟨_, .follow known' tended.stood completed, .following tended reported completed fits⟩

theorem fits_foreign {frames : List Frame} (own : ∀ frame ∈ frames, frame.run? = none)
    (fits : Fits plan aim w goal .loose stack) : Fits plan aim w goal .loose (frames ++ stack) := by
  induction frames with
  | nil => exact fits
  | cons frame rest ih =>
    exact .played (own frame List.mem_cons_self) (ih fun x member => own x (List.mem_cons_of_mem _ member))

theorem plays_focused {u : World} (plays : Plays w t stack next)
    (fits : Fits plan aim u (aim t) .loose stack) : Focused plan aim u next := by
  cases plays with
  | left _ => exact ⟨.loose, fun _ _ => trivial, fits⟩
  | entered r frames own foreign _ => exact ⟨.loose, .played own, fits_foreign foreign fits⟩

theorem opens_foreign {r : Routine} (opens : Opens plan aim w r a) (own : r.run? = none)
    (other : ∀ f, r ≠ .wait f) : a = .loose := by
  cases opens with
  | played _ => rfl
  | wait f => exact absurd rfl (other f)
  | _ => cases own

theorem fits_foreign_frame {frame : Frame} (fits : Fits plan aim w goal a (frame :: stack))
    (own : frame.run? = none) : Fits plan aim w goal .loose stack := by
  cases fits with
  | played _ rest => exact rest
  | _ => cases own

theorem Reachable.unbegun {later : List Note} {args : Entries} (reached : Reachable plan w')
    (compiled : plan.tree.Compiled) (before : Reachable plan w) (split : w'.notes = later ++ w.notes)
    (called : (run, .called h args) ∈ later) (body : Option FutureId) : (run, .began h body) ∉ w.notes := by
  intro begun
  obtain ⟨args', again⟩ := before.begun begun
  exact reached.once compiled .call split called again rfl rfl rfl

theorem chained_succeeded {g : FutureId} (sound : w.Sound) (ordered : Ordered plan aim w)
    (chained : Chained aim w run members chains) (joint : w.kind? g = some (.joint chains))
    (done : w.Succeeded g) : ∀ m ∈ members, w.Over run m := by
  have joins : ∃ ended, w.Joins g chains ended := by
    obtain ⟨p, own, kind⟩ := Option.map_eq_some_iff.mp joint
    cases p with
    | joint children ended requested =>
      obtain rfl : children = chains := by simpa [Purpose.kind] using kind
      exact ⟨ended, requested, own⟩
    | plain _ => simp [Purpose.kind] at kind
    | task _ _ _ => simp [Purpose.kind] at kind
  obtain ⟨ended, joins⟩ := joins
  have all := sound.joints.joined g chains ended joins done
  clear joint joins done
  induction chained with
  | nil => simp
  | @cons m c members chains own _ ih =>
    intro m' member
    rcases List.mem_cons.mp member with rfl | later
    · have holds := ordered.succeeded c own.2 (all c List.mem_cons_self)
      rw [own.1] at holds
      exact holds
    · exact ih (fun c' there => all c' (List.mem_cons_of_mem _ there)) m' later

/-- Whoever waited for a node's body through a future of its own is over with that node. -/
theorem Tended.finish {b g : FutureId} {payload : Entries} (tended : Tended plan w run call (some b))
    (freed : w.Freed) (waiter : w.kind? g = some (.plain (.waiter b))) (done : w.Succeeded g)
    (reported : w.Reported call (some b)) (completed : (run, .completed call.node.head r payload) ∈ w.notes)
    (followed : (run, .followed call.node.head) ∈ w.notes)
    (routed : w.isSettled run ∨ w.Routed run call.node r) : w.Over run call.node.entry := by
  by_cases past : w.isSettled run
  · exact .inl past
  refine .inr (Done.of_routed (r := r) ⟨tended.dates.called, ⟨payload, completed⟩, followed, tended.ended, ?_⟩
    (routed.resolve_left past))
  intro b' begun
  rcases tended.bodies b' begun with fine | ⟨same, watched⟩
  · exact fine
  · obtain rfl := Option.some.inj same
    obtain ⟨s, settled, told⟩ := watched.heard freed waiter done
    refine ⟨s, settled, (freed _ _ waiter done).2, fun e failed => ?_⟩
    rcases told e failed with unheard | now | ⟨f, report, doomed⟩
    · exact unheard
    · exact absurd now past
    · -- the descriptor has reported, so it has not been failed
      obtain ⟨f', report', v, value⟩ := reported b rfl
      obtain rfl := Option.some.inj (report.symm.trans report')
      rw [doomed] at value
      cases value

/-! ### Lists that are gone through -/

theorem Reached.stood (reached : Reached plan w run place before (e :: rest)) (own : n ∈ e.own) :
    Stood plan w run n :=
  ⟨place, before, rest, e, reached.list, reached.past, own⟩

theorem Reached.into {done : List Entry}
    (reached : Reached plan w run place before (.nested (done ++ .nested inner :: members) :: rest)) :
    Reached plan w run (place ++ [.entry before.length] ++ [.entry done.length]) [] inner := by
  have opened : Open plan w run (place ++ [.entry before.length, .entry done.length]) inner :=
    .nested reached.list reached.past (k := done.length) (by simp)
  refine ⟨reached.known, ?_, by simp⟩
  rw [List.append_assoc]
  exact opened

theorem Reached.advance (reached : Reached plan w run place before (e :: rest)) (past : w.Over run e) :
    Reached plan w run place (before ++ [e]) rest := by
  refine ⟨reached.known, by simpa using reached.list, fun x member => ?_⟩
  rcases List.mem_append.mp member with earlier | here
  · exact reached.past x earlier
  · exact List.mem_singleton.mp here ▸ past

theorem opens_advance (reached : Reached plan w run place before (e :: rest)) (past : w.Over run e)
    (spans : a.Spans run (before ++ e :: rest)) :
    Opens plan aim w (.branches run place (before.length + 1) rest) a := by
  have next : Opens plan aim w (.branches run place (before ++ [e]).length rest) a :=
    .branches (reached.advance past) (by simpa using spans)
  simpa using next

theorem opens_dispatch {done : List Entry} {c : FutureId}
    (reached : Reached plan w run place before (.nested (done ++ e :: members) :: rest))
    (chained : Chained aim w run done chains) (own : aim c = .entry run e) (task : w.kind? c = some .task) :
    Opens plan aim w (.dispatch run (place ++ [.entry before.length]) (done.length + 1) members
      (chains ++ [c])) (.entry run (.nested (done ++ e :: members))) := by
  have split : done ++ e :: members = (done ++ [e]) ++ members := by simp
  have more : Chained aim w run (done ++ [e]) (chains ++ [c]) :=
    List.rel_append chained (.cons ⟨own, task⟩ .nil)
  have reached' : Reached plan w run place before (.nested ((done ++ [e]) ++ members) :: rest) :=
    split ▸ reached
  have next := Opens.dispatch reached' more
  rw [← split] at next
  simpa using next

theorem spans_holds (spans : a.Spans run entries) (all : ∀ e ∈ entries, w.Over run e) : w.Holds a := by
  cases spans with
  | whole => exact over_nested all
  | selected selects =>
    rcases over_nested all with settled | done
    · exact .inl settled
    · cases done with
      | nested all => exact .inr (.inr ⟨_, _, selects, all⟩)

theorem spans_settled (spans : a.Spans run entries) (past : w.isSettled run) : w.Holds a := by
  cases spans with
  | whole => exact .inl past
  | selected _ => exact .inl past

/-! ### What acts turn to -/

theorem kind_newTask (r : Routine) : (w.newTask r).2.kind? w.futures.size = some .task := by
  rw [kind?, purpose?_newTask, if_pos rfl]
  rfl

theorem kind_newJoint (chains : List FutureId) :
    (w.newJoint chains).2.kind? w.futures.size = some (.joint chains) := by
  have joint : (w.newFuture (.joint chains 0 false)).2.kind? w.futures.size = some (.joint chains) := by
    rw [kind?, purpose?_newFuture, if_pos rfl]
    rfl
  have registered (l : List FutureId) (w : World) (g : FutureId) :
      Grown w (l.foldl (fun w child => w.onSettled child (.childEnded g child)) w) := by
    induction l generalizing w with
    | nil => exact .refl w
    | cons c rest ih => exact Grown.onSettled.trans (ih _)
  unfold World.newJoint
  dsimp only
  split
  · exact Grown.settle.kinds _ _ joint
  · exact (registered chains _ _).kinds _ _ joint

theorem Keeps.newTask (r : Routine) : Keeps w (w.newTask r).2 := by
  refine .of_subset (fun j member => ?_) (newTask_sameRuns r).loop (Grown.newTask r).loops
  have made : j ∈ (w.newFuture (.task (.unstarted r) none false)).2.jobs := by
    rw [jobs_newFuture]
    exact member
  exact Keeps.jobs_subset_post _ made

theorem watched_chainMember {w₁ : World} {explicit : Bool} {b : FutureId}
    (sound : w.Sound) (freed : w.Freed)
    (effect : Effect notes tasks w (w₁.chainMember run call explicit b).2) (new : w.futures.size ≤ b)
    (made : b < w₁.futures.size) :
    (w₁.chainMember run call explicit b).2.Watched run call.node.head call.completion b := by
  have known : b < (w₁.note run (.began call.node.head (some b))).futures.size := made
  have kept := Keeps.newTask (w := (w₁.note run (.began call.node.head (some b))).onSettled b
    (.bodyEnded run call.node call.completion explicit b)) (.member run call (some b))
  have missed (closed : (w₁.chainMember run call explicit b).2.Frozen b) :
      (w₁.chainMember run call explicit b).2.Missed b := by
    refine ⟨closed, fun g kind done => ?_⟩
    have before := done.of_detains kind (.effect sound.roles effect)
    obtain ⟨v, settled⟩ := before
    have old : g < w.futures.size := settlement?_lt settled
    have kind' := (Grown.effect effect).kind_of_lt old kind
    obtain ⟨⟨s, past⟩, -⟩ := freed g b kind' ⟨v, settled⟩
    rw [settlement?_new new] at past
    cases past
  rcases onSettled_waits (j := .bodyEnded run call.node call.completion explicit b) known with
    waits | closed
  · rcases kept.jobs _ waits b rfl with stays | closed
    · exact .inl ⟨call.node, explicit, rfl, stays⟩
    · exact .inr (.inl (missed closed))
  · exact .inr (.inl (missed (kept.frozen closed)))

end World

end Conductor
