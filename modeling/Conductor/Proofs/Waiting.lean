import Conductor.Proofs.Wakes

/-!
# Who waits for what

A group waits for a joint future of chains that were made after the task that dispatches the group, and
whoever waits for a body through a future of its own made that future after the body. So whoever is
waited for is newer than who waits.
-/

namespace Conductor

def Routine.chains : Routine → List FutureId
  | .dispatch _ _ _ _ chains => chains
  | _ => []

def Focus.chains : Focus → List FutureId
  | .enter _ r _ => r.chains
  | _ => []

namespace World

variable {plan : Plan} {w w' : World} {run : RunId} {t f g b : FutureId} {stack : List Frame} {call : Call}
  {notes : List Note} {tasks : List (FutureId × Routine)} {next focus : Focus}

theorem Plays.chains (plays : Plays w t stack next) : next.chains = [] := by
  cases plays with
  | left _ => rfl
  | entered r frames own foreign waits => cases r <;> first | rfl | cases own

theorem Lost.chains {h : Head} {e : Raised} {pre : List Note} (lost : Lost run h e pre t stack w notes w' next) :
    next.chains = [] := by
  cases lost
  rfl

theorem Finished.chains {body : Option FutureId} {pre : List Note}
    (finished : Finished plan run call body pre t stack w notes w' next) : next.chains = [] := by
  cases finished with
  | lost lost => exact lost.chains
  | moot _ _ => rfl
  | followed _ _ _ _ => rfl

theorem Act.chains_next (act : Act plan w focus notes tasks w' next)
    (old : ∀ t, focus.task? = some t → t < w.futures.size)
    (before : ∀ t c, focus.task? = some t → c ∈ focus.chains → t < c) (t c : FutureId)
    (busy : next.task? = some t) (member : c ∈ next.chains) : t < c := by
  have mine : focus.task? = some t := act.task.2.symm.trans busy
  have none (same : next.chains = []) : t < c := by simp [same] at member
  have more {cs : List FutureId} {d : FutureId} (below : ∀ c ∈ cs, t < c) (new : w.futures.size ≤ d)
      (member : c ∈ cs ++ [d]) : t < c := by
    rcases List.mem_append.mp member with earlier | last
    · exact below c earlier
    · exact List.mem_singleton.mp last ▸ Nat.lt_of_lt_of_le (old t mine) new
  cases act with
  | played _ _ _ plays => exact none plays.chains
  | replayed _ _ plays => exact none plays.chains
  | plain _ _ effect _ _ _ => exact more (fun c => before t c mine) (Grown.effect effect).size_le member
  | watched _ _ _ effect _ _ _ _ _ _ _ => exact more (fun c => before t c mine) (Grown.effect effect).size_le member
  | spawned _ => exact more (fun c => before t c mine) (Nat.le_refl _) member
  | sequenced _ _ finished => exact none finished.chains
  | returned finished => exact none finished.chains
  | completed finished => exact none finished.chains
  | undispatched _ lost => exact none lost.chains
  | unasked lost => exact none lost.chains
  | unreturned lost => exact none lost.chains
  | uncompleted lost => exact none lost.chains
  | _ => exact none rfl

/-- Whether what a task waits for under the frame of a group or of a node that is followed was made in
the right order. -/
structure Above (w : World) : Prop where
  dispatching : ∀ t c, w.focus.task? = some t → c ∈ w.focus.chains → t < c
  joining : ∀ t g run stack chains, w.Waiting t g (.joining run :: stack) → w.kind? g = some (.joint chains) →
    ∀ c ∈ chains, t < c
  ending : ∀ t g run call b stack, w.Waiting t g (.ending run call b :: stack) →
    w.kind? g = some (.plain (.waiter b)) → b < g

theorem Above.fresh (h : w.Fresh) : Above w where
  dispatching t c busy := by simp [h.focus, Focus.task?] at busy
  joining t g run stack chains waits := by
    rcases waits with here | stood
    · cases h.focus.symm.trans here
    · exact absurd stood.lt (by simp [h.futures])
  ending t g run call b stack waits := by
    rcases waits with here | stood
    · cases h.focus.symm.trans here
    · exact absurd stood.lt (by simp [h.futures])

theorem settlement?_newJoint {chains : List FutureId} {s : Settlement}
    (settled : (w.newJoint chains).2.settlement? w.futures.size = some s) : s = .value .nothing := by
  have none : (w.newFuture (.joint chains 0 false)).2.settlement? w.futures.size = none :=
    (settlement?_newFuture _).trans (settlement?_new (Nat.le_refl _))
  unfold World.newJoint at settled
  dsimp only at settled
  split at settled
  · rcases settlement?_settle (w := (w.newFuture (.joint chains 0 false)).2) (f := w.futures.size)
      (s := .value .nothing) w.futures.size with same | ⟨-, -, now⟩
    · cases (settled.symm.trans same).trans none
    · exact (Option.some.inj (now.symm.trans settled)).symm
  · have kept (l : List FutureId) (u : World) (other : u.settlement? w.futures.size = Option.none) :
        (l.foldl (fun u child => u.onSettled child (.childEnded w.futures.size child)) u).settlement?
          w.futures.size = Option.none := by
      induction l generalizing u with
      | nil => exact other
      | cons c rest ih => exact ih _ (settlement?_onSettled.trans other)
    cases settled.symm.trans (kept chains _ none)

/-- A wait that an act turns to: for something new, for a body, or for a report. -/
inductive Act.WaitsFor (w w' : World) (t f : FutureId) (focus : Focus) : List Frame → Prop where
  | timed {stack : List Frame} (own : w'.kind? f = some (.plain .timed)) : WaitsFor w w' t f focus stack
  | outcome {run : RunId} {stack : List Frame} : WaitsFor w w' t f focus (.runner run :: stack)
  | joined {run : RunId} {place : Path} {position : Nat} {chains : List FutureId} {stack : List Frame}
      (here : focus = .enter t (.dispatch run place position [] chains) stack)
      (own : w'.purpose? f = some (.joint chains 0 false))
      (empty : ∀ s, w'.settlement? f = some s → s = .value .nothing) (new : f = w.futures.size) :
      WaitsFor w w' t f focus (.joining run :: stack)
  | report {run : RunId} {call : Call} {body : Option FutureId} {stack : List Frame}
      (here : focus = .enter t (.member run call body) stack) (own : w.first? call.completion = some f) :
      WaitsFor w w' t f focus (.completing run call body :: stack)
  | lingering {run : RunId} {call : Call} {b : FutureId} {v : Yield} {stack : List Frame}
      (here : focus = .leave t (.ok v) (.following run call (some b) :: stack))
      (pending : w'.settlement? f = none) (new : f = w.futures.size) :
      WaitsFor w w' t f focus (.ending run call b :: stack)

theorem Act.waitsFor (act : Act plan w focus notes tasks w' (.enter t (.wait f) stack)) :
    Act.WaitsFor w w' t f focus stack := by
  generalize same : Focus.enter t (.wait f) stack = next at act
  have played {stack₀ : List Frame} {u : FutureId} (plays : Plays w' u stack₀ next) :
      Act.WaitsFor w w' t f focus stack := by
    subst same
    cases plays with
    | entered r frames own foreign waits => exact .timed (kind?_of_purpose? (waits f rfl).1)
  cases act with
  | played _ _ _ plays => exact played plays
  | replayed _ _ plays => exact played plays
  | launched _ _ _ _ _ _ =>
    obtain ⟨-, -, rfl⟩ := Focus.enter.inj same
    exact .outcome
  | outside _ _ _ new own _ =>
    obtain ⟨-, wait, -⟩ := Focus.enter.inj same
    obtain rfl := Routine.wait.inj wait
    exact .timed (kind?_of_purpose? own)
  | joined _ _ =>
    obtain ⟨rfl, wait, rfl⟩ := Focus.enter.inj same
    obtain rfl := Routine.wait.inj wait
    exact .joined rfl ((purpose?_newJoint _).trans (if_pos rfl)) (fun s => settlement?_newJoint) rfl
  | asked report =>
    obtain ⟨rfl, wait, rfl⟩ := Focus.enter.inj same
    obtain rfl := Routine.wait.inj wait
    exact .report rfl report
  | lingering =>
    obtain ⟨rfl, wait, rfl⟩ := Focus.enter.inj same
    obtain rfl := Routine.wait.inj wait
    refine .lingering rfl (settlement?_onSettled.trans ?_) rfl
    exact (settlement?_newFuture (w := w.note _ _) _).trans (settlement?_new (Nat.le_refl _))
  | sequenced _ _ finished => exact absurd same.symm finished.waits
  | returned finished => exact absurd same.symm finished.waits
  | completed finished => exact absurd same.symm finished.waits
  | undispatched _ lost => exact absurd same.symm lost.waits
  | unasked lost => exact absurd same.symm lost.waits
  | unreturned lost => exact absurd same.symm lost.waits
  | uncompleted lost => exact absurd same.symm lost.waits
  | _ => cases same

section

variable (above : Above w) (sound : w.Sound) (m : Move plan w w')
include above sound m

theorem Above.dispatching_move {c : FutureId} (busy : w'.focus.task? = some t) (member : c ∈ w'.focus.chains) :
    t < c := by
  cases m.turn sound with
  | acted act rests =>
    exact act.chains_next (fun u mine => (sound.tasks.focus u mine).2.lt) above.dispatching t c busy member
  | halted _ _ _ _ idle => simp [idle, Focus.chains] at member
  | ended _ _ _ idle => simp [idle, Focus.chains] at member
  | @resumed _ u p waiting o idle stood shifts same heard goesOn told =>
    rcases goesOn with ⟨r, rfl, ⟨v, -, here⟩ | ⟨e, -, here⟩⟩ | ⟨stack, rfl, here⟩ <;> rw [here] at member
    · have begins := sound.tasks.begins u r _ stood
      cases r <;> simp_all [Focus.chains, Routine.chains, Routine.begins]
    · cases member
    · cases member
  | begun r caller =>
    rw [(newTask_sameRuns r).focus] at busy member
    exact above.dispatching t c busy member
  | rested rests focus =>
    rw [focus] at busy member
    exact above.dispatching t c busy member

variable (wakes : Wakes w)
include wakes

theorem Above.joining_move {chains : List FutureId} (waits : w'.Waiting t g (.joining run :: stack))
    (joint : w'.kind? g = some (.joint chains)) : ∀ c ∈ chains, t < c := by
  rcases m.waits sound waits with old | ⟨notes, tasks, w₁, act, rfl⟩
  · have known := wakes.known t g _ old
    exact above.joining t g run stack chains old ((m.grown sound.steady).kind_of_lt known joint)
  · have joint' : w₁.kind? g = some (.joint chains) := joint
    cases act.waitsFor with
    | timed own => cases own.symm.trans joint'
    | joined here own empty new =>
      obtain rfl : _ = chains := by simpa [Purpose.kind] using (kind?_of_purpose? own).symm.trans joint'
      exact fun c member => above.dispatching t c (by rw [here]; rfl) (by rw [here]; exact member)

theorem Above.ending_move (dated : AllDated w) (waits : w'.Waiting t g (.ending run call b :: stack))
    (waiter : w'.kind? g = some (.plain (.waiter b))) : b < g := by
  rcases m.waits sound waits with old | ⟨notes, tasks, w₁, act, rfl⟩
  · have known := wakes.known t g _ old
    exact above.ending t g run call b stack old ((m.grown sound.steady).kind_of_lt known waiter)
  · have waiter' : w₁.kind? g = some (.plain (.waiter b)) := waiter
    cases act.waitsFor with
    | timed own => cases own.symm.trans waiter'
    | lingering here pending new =>
      have frames := dated.focus
      rw [here] at frames
      obtain ⟨o, -, -, there⟩ := ((datedStack_cons.mp frames).1 run rfl).refs b (by simp [Frame.refs])
      exact new ▸ there

theorem Above.move (dated : AllDated w) : Above w' where
  dispatching _ _ busy member := above.dispatching_move sound m busy member
  joining _ _ _ _ _ waits joint := above.joining_move sound m wakes waits joint
  ending _ _ _ _ _ _ waits waiter := above.ending_move sound m wakes dated waits waiter

end

theorem Reachable.above (reached : Reachable plan w) (compiled : plan.tree.Compiled) : Above w := by
  induction reached with
  | fresh h => exact .fresh h
  | move before m ih => exact ih.move before.sound m before.wakes (before.dated compiled)

end World

end Conductor
