import Conductor.Proofs.Branches
import Conductor.Proofs.Operations

/-!
# What a task does in a step

In a step of the machine the task at work enters a routine or goes on with a frame. An act says what
is noted then, which tasks are made, and what the task turns to. Whatever is proved of the order in
which a run does things is proved of acts.
-/

namespace Conductor

def Yield.report : Yield → Reported
  | .reported x => x
  | _ => .result {}

def Focus.task? : Focus → Option FutureId
  | .idle => none
  | .enter t _ _ | .leave t _ _ => some t

def Focus.Proper : Focus → Prop
  | .leave _ o _ => Outcome.Proper o
  | _ => True

def Routine.run? : Routine → Option RunId
  | .drive run | .branches run _ _ _ | .sequential run _ | .dispatch run _ _ _ _
  | .member run _ _ | .follow run _ _ => some run
  | _ => none

def Frame.run? : Frame → Option RunId
  | .drive run | .branches run _ _ _ | .returning run _ | .joining run | .completing run _ _
  | .following run _ _ | .ending run _ _ => some run
  | _ => none

namespace World

/-- What a step relies on: the queue names only futures that there are, only a run that has not
settled calls actions, the chains of a group are distinct ones, and no settlement or outcome is the
end of an iteration. -/
structure Steady (w : World) : Prop where
  sources : w.Sourced
  sequential : ∀ t run node stack, w.focus = .enter t (.sequential run node) stack →
    w.isSettled run = false
  dispatch : ∀ t run place position members chains stack,
    w.focus = .enter t (.dispatch run place position members chains) stack →
      w.isSettled run = false ∧ chains.Nodup ∧ ∀ c ∈ chains, c < w.futures.size
  settlements : ∀ f s, w.settlement? f = some s → s.Proper
  outcome : w.focus.Proper

inductive Plays (w : World) (t : FutureId) (stack : List Frame) : Focus → Prop where
  | left {o : Outcome} (proper : o.Proper) : Plays w t stack (.leave t o stack)
  | entered (r : Routine) (frames : List Frame) (own : r.run? = none)
      (foreign : ∀ frame ∈ frames, frame.run? = none)
      (waits : ∀ f, r = .wait f → w.purpose? f = some (.plain .timed) ∧ f + 1 = w.futures.size) :
      Plays w t stack (.enter t r (frames ++ stack))

inductive Lost (run : RunId) (h : Head) (e : Raised) (pre : List Note) (t : FutureId)
    (stack : List Frame) (w : World) : List Note → World → Focus → Prop where
  | mk {rejections : List Note} {w₁ w' : World} {o : Outcome} (first : Effect pre [] w w₁)
      (rest : Catching run e rejections (w₁.note run (.failed h e)) w' o) :
      Lost run h e pre t stack w (rejections ++ (run, .failed h e) :: pre) w' (.leave t o stack)

/-- A node whose report is due fails, or its run has settled, or its result is merged and
followed. -/
inductive Finished (plan : Plan) (run : RunId) (call : Call) (body : Option FutureId)
    (pre : List Note) (t : FutureId) (stack : List Frame) (w : World) :
    List Note → World → Focus → Prop where
  | lost {e : Raised} {notes : List Note} {w' : World} {next : Focus}
      (lost : Lost run call.node.head e pre t stack w notes w' next) :
      Finished plan run call body pre t stack w notes w' next
  | moot {w' : World} (effect : Effect pre [] w w') (past : w'.isSettled run) :
      Finished plan run call body pre t stack w pre w' (.leave t (.ok .nothing) stack)
  | followed {w₁ w' : World} {r : Result} {payload : Entries} (first : Effect pre [] w w₁)
      (fresh : w₁.isSettled run = false)
      (done : w₁.complete plan run call.node r call.started = .ok w')
      (effect : Effect [(run, .completed call.node.head r payload)] [] w₁ w') :
      Finished plan run call body pre t stack w ((run, .completed call.node.head r payload) :: pre)
        w' (.enter t (.follow run call.node r) (.following run call body :: stack))

/-- The acts of tasks: from what a task is at, to what it turns to. -/
inductive Act (plan : Plan) (w : World) :
    Focus → List Note → List (FutureId × Routine) → World → Focus → Prop where
  -- bodies and callers
  | played {t : FutureId} {r : Routine} {stack : List Frame} {w' : World} {next : Focus}
      (own : r.run? = none) (other : ∀ f, r ≠ .wait f) (effect : Effect [] [] w w')
      (plays : Plays w' t stack next) : Act plan w (.enter t r stack) [] [] w' next
  | replayed {t : FutureId} {o : Outcome} {frame : Frame} {stack : List Frame} {w' : World}
      {next : Focus} (own : frame.run? = none) (effect : Effect [] [] w w')
      (plays : Plays w' t stack next) : Act plan w (.leave t o (frame :: stack)) [] [] w' next
  | launched {t : FutureId} {r : Routine} {stack : List Frame} {w' : World} {record : Record}
      (own : r.run? = none) (other : ∀ f, r ≠ .wait f)
      (effect : Effect [] [(w.futures.size + 1, .drive w.records.size)] w w')
      (records : w'.records = w.records.push record) (running : record.status = .running)
      (outcome : record.outcome = w.futures.size) :
      Act plan w (.enter t r stack) [] [(w.futures.size + 1, .drive w.records.size)] w'
        (.enter t (.wait w.futures.size) (.runner w.records.size :: stack))
  | delivered {t f : FutureId} {stack : List Frame} {s : Settlement}
      (settled : w.settlement? f = some s) :
      Act plan w (.enter t (.wait f) stack) [] [] (w.deliver s).2 (.leave t (w.deliver s).1 stack)
  -- branch lists
  | driven {t : FutureId} {run : RunId} {stack : List Frame} :
      Act plan w (.enter t (.drive run) stack) [] [] w
        (.enter t (.branches run [] 0 plan.tree.branches) (.drive run :: stack))
  | exhausted {t : FutureId} {run : RunId} {place : Path} {position : Nat} {stack : List Frame} :
      Act plan w (.enter t (.branches run place position []) stack) [] [] w
        (.leave t (.ok .nothing) stack)
  | skipped {t : FutureId} {run : RunId} {place : Path} {position : Nat} {entries : List Entry}
      {stack : List Frame} (past : w.isSettled run) :
      Act plan w (.enter t (.branches run place position entries) stack) [] [] w
        (.leave t (.ok .nothing) stack)
  | single {t : FutureId} {run : RunId} {place : Path} {position : Nat} (node : Node)
      {rest : List Entry} {stack : List Frame} (fresh : w.isSettled run = false) :
      Act plan w (.enter t (.branches run place position (node.entry :: rest)) stack) [] [] w
        (.enter t (.sequential run node) (.branches run place (position + 1) rest :: stack))
  | grouped {t : FutureId} {run : RunId} {place : Path} {position : Nat} {members rest : List Entry}
      {stack : List Frame} (fresh : w.isSettled run = false) :
      Act plan w (.enter t (.branches run place position (.nested members :: rest)) stack) [] [] w
        (.enter t (.dispatch run (place ++ [.entry position]) 0 members [])
          (.branches run place (position + 1) rest :: stack))
  -- sequential nodes
  | sequenced {t : FutureId} {run : RunId} (call : Call) {stack : List Frame} {args : Entries}
      {notes : List Note} {w' : World} {next : Focus} (fresh : w.isSettled run = false)
      (finished : Finished plan run call none [(run, .called call.node.head args)] t stack w notes
        w' next) (now : call.started = w.clock) :
      Act plan w (.enter t (.sequential run call.node) stack) notes [] w' next
  | inside {t : FutureId} {run : RunId} (call : Call) {stack : List Frame} {args : Entries}
      {w' : World} {scope : Scope} {steps : List Step} (fresh : w.isSettled run = false)
      (effect : Effect [(run, .began call.node.head none), (run, .called call.node.head args)] []
        w w') (now : call.started = w.clock) :
      Act plan w (.enter t (.sequential run call.node) stack)
        [(run, .began call.node.head none), (run, .called call.node.head args)] [] w'
        (.enter t (.script scope ⟨[], steps⟩) (.returning run call :: stack))
  | outside {t : FutureId} {run : RunId} (call : Call) {stack : List Frame} {args : Entries}
      {w' : World} {f : FutureId} (fresh : w.isSettled run = false)
      (effect : Effect [(run, .began call.node.head (some f)), (run, .called call.node.head args)]
        [] w w')
      (new : w.futures.size ≤ f) (own : w'.purpose? f = some (.plain .timed))
      (unseen : ∀ j ∈ w'.jobs, j.source? ≠ some f) (now : call.started = w.clock) :
      Act plan w (.enter t (.sequential run call.node) stack)
        [(run, .began call.node.head (some f)), (run, .called call.node.head args)] [] w'
        (.enter t (.wait f) (.returning run call :: stack))
  -- groups
  | joined {t : FutureId} {run : RunId} {place : Path} {position : Nat} {chains : List FutureId}
      {stack : List Frame} (distinct : chains.Nodup) (known : ∀ c ∈ chains, c < w.futures.size) :
      Act plan w (.enter t (.dispatch run place position [] chains) stack) [] [] (w.newJoint chains).2
        (.enter t (.wait w.futures.size) (.joining run :: stack))
  | undispatched {t : FutureId} {run : RunId} {place : Path} {position : Nat} {node : Node}
      {rest : List Entry} {chains : List FutureId} {stack : List Frame} {args : Entries} {e : Raised}
      {notes : List Note} {w' : World} {next : Focus} (fresh : w.isSettled run = false)
      (lost : Lost run node.head e [(run, .called node.head args)] t stack w notes w' next) :
      Act plan w (.enter t (.dispatch run place position (node.entry :: rest) chains) stack) notes []
        w' next
  | plain {t : FutureId} {run : RunId} {place : Path} {position : Nat} (call : Call)
      {rest : List Entry} {chains : List FutureId} {stack : List Frame} {args : Entries}
      {w₁ : World} {f : FutureId} (fresh : w.isSettled run = false)
      (effect : Effect [(run, .called call.node.head args)] [] w w₁)
      (report : w₁.first? call.completion = some f) (own : call.completion = w.completions.size)
      (recent : f = w.futures.size) (now : call.started = w.clock) :
      Act plan w (.enter t (.dispatch run place position (call.node.entry :: rest) chains) stack)
        [(run, .called call.node.head args)] [(w₁.futures.size, .member run call none)]
        (w₁.newTask (.member run call none)).2
        (.enter t (.dispatch run place (position + 1) rest (chains ++ [w₁.futures.size])) stack)
  | watched {t : FutureId} {run : RunId} {place : Path} {position : Nat} (call : Call)
      {rest : List Entry} {chains : List FutureId} {stack : List Frame} {args : Entries}
      {bodies : List (FutureId × Routine)} {w₁ : World} {f body : FutureId} (explicit : Bool)
      (fresh : w.isSettled run = false)
      (effect : Effect [(run, .called call.node.head args)] bodies w w₁)
      (scripts : ∀ x ∈ bodies, x.2.run? = none ∧ x.2.begins)
      (report : w₁.first? call.completion = some f) (new : w.futures.size ≤ body)
      (made : body < w₁.futures.size) (unseen : ∀ j ∈ w₁.jobs, j.source? ≠ some body)
      (own : call.completion = w.completions.size) (recent : f = w.futures.size) (now : call.started = w.clock) :
      Act plan w (.enter t (.dispatch run place position (call.node.entry :: rest) chains) stack)
        [(run, .began call.node.head (some body)), (run, .called call.node.head args)]
        ((w₁.futures.size, .member run call (some body)) :: bodies)
        (w₁.chainMember run call explicit body).2
        (.enter t (.dispatch run place (position + 1) rest (chains ++ [w₁.futures.size])) stack)
  | spawned {t : FutureId} {run : RunId} {place : Path} {position : Nat} {inner rest : List Entry}
      {chains : List FutureId} {stack : List Frame} (fresh : w.isSettled run = false) :
      Act plan w (.enter t (.dispatch run place position (.nested inner :: rest) chains) stack)
        [(run, .spawned (place ++ [.entry position]))]
        [(w.futures.size, .branches run (place ++ [.entry position]) 0 inner)]
        ((w.note run (.spawned (place ++ [.entry position]))).newTask
          (.branches run (place ++ [.entry position]) 0 inner)).2
        (.enter t (.dispatch run place (position + 1) rest (chains ++ [w.futures.size])) stack)
  -- members
  | asked {t : FutureId} {run : RunId} {call : Call} {body : Option FutureId} {stack : List Frame}
      {f : FutureId} (report : w.first? call.completion = some f) :
      Act plan w (.enter t (.member run call body) stack) [] [] w
        (.enter t (.wait f) (.completing run call body :: stack))
  | absent {t : FutureId} {run : RunId} {call : Call} {body : Option FutureId} {stack : List Frame}
      (report : w.first? call.completion = none) :
      Act plan w (.enter t (.member run call body) stack) [] [] w (.leave t (.ok .nothing) stack)
  | unasked {t : FutureId} {run : RunId} {call : Call} {body : Option FutureId}
      {stack : List Frame} {e : Raised} {notes : List Note} {w' : World} {next : Focus}
      (lost : Lost run call.node.head e [] t stack w notes w' next) (ordinary : e.fault.nature = .ordinary) :
      Act plan w (.enter t (.member run call body) stack) notes [] w' next
  -- selected branches
  | missed {t : FutureId} {run : RunId} {node : Node} {r : Result} {stack : List Frame} {w' : World}
      {e : Raised} (ordinary : e.fault.nature = .ordinary)
      (undeclared : w.selected node r = .error e.fault)
      (effect : Effect [(run, .failed node.head e)] [] w w') :
      Act plan w (.enter t (.follow run node r) stack) [(run, .failed node.head e)] [] w'
        (.leave t (.error e) stack)
  | unrouted {t : FutureId} {run : RunId} {node : Node} {r : Result} {stack : List Frame}
      (null : r.path = .atom .null) :
      Act plan w (.enter t (.follow run node r) stack) [] [] w (.leave t (.ok .nothing) stack)
  | routed {t : FutureId} {run : RunId} {node : Node} {r : Result} {stack : List Frame}
      {key declared : Key} {inner : List Entry} (given : r.path ≠ .atom .null)
      (selects : Template.keyOf r.path = .ok key) (route : node.route? key = some (declared, .list inner)) :
      Act plan w (.enter t (.follow run node r) stack) [] [] w
        (.enter t (.branches run (node.path ++ [.output declared]) 0 inner) stack)
  -- what is done with a value
  | resolved {t : FutureId} {run : RunId} {v : Yield} {stack : List Frame} {notes : List Note}
      {w' : World} {o : Outcome} (effect : Effect notes [] w w') (proper : o.Proper)
      (only : ∀ n ∈ notes, ∃ ms, n = (run, .settled (.resolved ms)))
      (settles : (w.record? run).isSome → w'.isSettled run)
      (refuses : ∀ e, o = .error e →
        ∃ r, w.record? run = some r ∧ r.status = .running ∧ w.isPending r.outcome = false) :
      Act plan w (.leave t (.ok v) (.drive run :: stack)) notes [] w' (.leave t o stack)
  | resumed {t : FutureId} {run : RunId} {v : Yield} {place : Path} {position : Nat}
      {rest : List Entry} {stack : List Frame} :
      Act plan w (.leave t (.ok v) (.branches run place position rest :: stack)) [] [] w
        (.enter t (.branches run place position rest) stack)
  | returned {t : FutureId} {run : RunId} {v : Yield} {call : Call} {stack : List Frame}
      {notes : List Note} {w' : World} {next : Focus}
      (finished : Finished plan run call none [(run, .ended call.node.head)] t stack w notes w' next) :
      Act plan w (.leave t (.ok v) (.returning run call :: stack)) notes [] w' next
  | gathered {t : FutureId} {run : RunId} {v : Yield} {stack : List Frame} :
      Act plan w (.leave t (.ok v) (.joining run :: stack)) [] [] w (.leave t (.ok .nothing) stack)
  | completed {t : FutureId} {run : RunId} {v : Yield} {call : Call} {body : Option FutureId}
      {stack : List Frame} {notes : List Note} {w' : World} {next : Focus}
      (finished : Finished plan run call body [] t stack w notes w' next)
      (result : ∀ r payload, (run, .completed call.node.head r payload) ∈ notes → v.report = .result r) :
      Act plan w (.leave t (.ok v) (.completing run call body :: stack)) notes [] w' next
  | followed {t : FutureId} {run : RunId} {v : Yield} {call : Call} {stack : List Frame} :
      Act plan w (.leave t (.ok v) (.following run call none :: stack))
        [(run, .followed call.node.head)] [] (w.note run (.followed call.node.head))
        (.leave t (.ok .nothing) stack)
  | lingering {t : FutureId} {run : RunId} {v : Yield} {call : Call} {body : FutureId}
      {stack : List Frame} :
      Act plan w (.leave t (.ok v) (.following run call (some body) :: stack))
        [(run, .followed call.node.head)] []
        (((w.note run (.followed call.node.head)).newFuture (.plain (.waiter body))).2.onSettled body
          (.release w.futures.size body))
        (.enter t (.wait w.futures.size) (.ending run call body :: stack))
  | finished {t : FutureId} {run : RunId} {v : Yield} {call : Call} {body : FutureId}
      {stack : List Frame} :
      Act plan w (.leave t (.ok v) (.ending run call body :: stack)) [] [] w
        (.leave t (.ok .nothing) stack)
  -- what is done with a failure
  | rejected {t : FutureId} {run : RunId} {e : Raised} {stack : List Frame} {notes : List Note}
      {w' : World} {o : Outcome} (losing : Losing run e notes w w' o) :
      Act plan w (.leave t (.error e) (.drive run :: stack)) notes [] w' (.leave t o stack)
  | unreturned {t : FutureId} {run : RunId} {e : Raised} {call : Call} {stack : List Frame}
      {notes : List Note} {w' : World} {next : Focus}
      (lost : Lost run call.node.head e [] t stack w notes w' next) :
      Act plan w (.leave t (.error e) (.returning run call :: stack)) notes [] w' next
  | uncompleted {t : FutureId} {run : RunId} {e : Raised} {call : Call} {body : Option FutureId}
      {stack : List Frame} {notes : List Note} {w' : World} {next : Focus}
      (lost : Lost run call.node.head e [] t stack w notes w' next) :
      Act plan w (.leave t (.error e) (.completing run call body :: stack)) notes [] w' next
  | unfollowed {t : FutureId} {run : RunId} {e : Raised} {call : Call} {body : Option FutureId}
      {stack : List Frame} {notes : List Note} {w' : World} {o : Outcome}
      (losing : Catching run e notes w w' o) :
      Act plan w (.leave t (.error e) (.following run call body :: stack)) notes [] w'
        (.leave t o stack)
  | unfinished {t : FutureId} {run : RunId} {e : Raised} {call : Call} {body : FutureId}
      {stack : List Frame} {notes : List Note} {w' : World} {o : Outcome}
      (losing : Catching run e notes w w' o) :
      Act plan w (.leave t (.error e) (.ending run call body :: stack)) notes [] w'
        (.leave t o stack)
  | abandoned {t : FutureId} {run : RunId} {e : Raised} {place : Path} {position : Nat}
      {rest : List Entry} {stack : List Frame} :
      Act plan w (.leave t (.error e) (.branches run place position rest :: stack)) [] [] w
        (.leave t (.error e) stack)
  | ungathered {t : FutureId} {run : RunId} {e : Raised} {stack : List Frame} :
      Act plan w (.leave t (.error e) (.joining run :: stack)) [] [] w (.leave t (.error e) stack)

def Leads (plan : Plan) (w : World) (f : Focus) (w' : World) : Prop :=
  ∃ notes tasks w₁ next, Act plan w f notes tasks w₁ next ∧ w' = w₁.focusOn next

variable {w w' : World} {plan : Plan} {run : RunId} {node : Node} {call : Call} {t : FutureId}
  {stack : List Frame} {e : Raised} {notes : List Note} {tasks : List (FutureId × Routine)}
  {next : Focus} {body : Option FutureId} {pre : List Note} {h : Head}

/-! ### Proper outcomes -/

theorem items?_nature {h : Heap} {v : Value} {f : Fault} (failed : h.items? v = .error f) :
    f.nature = .ordinary := by
  unfold Heap.items? at failed
  split at failed <;> cases failed
  rfl

theorem keyOf_nature {v : Value} {f : Fault} (failed : Template.keyOf v = .error f) :
    f.nature = .ordinary := by
  unfold Template.keyOf at failed
  split at failed
  · cases failed
  · obtain rfl := Except.error.inj failed
    rfl

theorem pairs?_nature {h : Heap} {position : Nat} {vs : List Value} {f : Fault}
    (failed : h.pairs? position vs = .error f) : f.nature = .ordinary := by
  induction vs generalizing position with
  | nil => cases failed
  | cons v vs ih =>
    unfold Heap.pairs? at failed
    split at failed
    · obtain rfl := Except.error.inj failed
      rfl
    · rcases bind_error failed with key | ⟨_, -, failed⟩
      · exact keyOf_nature key
      · rcases bind_error failed with rest | ⟨_, -, failed⟩
        · exact ih rest
        · cases failed
    · obtain rfl := Except.error.inj failed
      rfl

theorem entriesOf_nature {h : Heap} {v : Value} {f : Fault} (failed : h.entriesOf v = .error f) :
    f.nature ≠ .stopIteration := by
  have ordinary : f.nature = .ordinary := by
    unfold Heap.entriesOf at failed
    split at failed
    · split at failed
      · cases failed
      · rcases bind_error failed with items | ⟨_, -, failed⟩
        · exact items?_nature items
        · rcases bind_error failed with pairs | ⟨_, -, failed⟩
          · exact pairs?_nature pairs
          · cases failed
    · cases failed
  simp [ordinary]

theorem selected_nature {r : Result} {f : Fault} (failed : w.selected node r = .error f) :
    f.nature = .ordinary := by
  unfold selected at failed
  split at failed
  · cases failed
  · dsimp only at failed
    split at failed
    · obtain rfl := Except.error.inj failed
      rfl
    · rcases bind_error failed with key | ⟨_, -, failed⟩
      · exact keyOf_nature key
      · split at failed
        · obtain rfl := Except.error.inj failed
          rfl
        · cases failed
        · obtain rfl := Except.error.inj failed
          rfl

theorem selected_none {r : Result} (none : w.selected node r = .ok none) : r.path = .atom .null := by
  unfold selected at none
  split at none
  · assumption
  · dsimp only at none
    split at none
    · cases none
    · obtain ⟨_, -, none⟩ := bind_ok none
      split at none
      · cases none
      · cases none
      · cases none

theorem selected_some {r : Result} {declared : Key} {inner : List Entry}
    (found : w.selected node r = .ok (some (declared, inner))) :
    r.path ≠ .atom .null ∧
      ∃ key, Template.keyOf r.path = .ok key ∧ node.route? key = some (declared, .list inner) := by
  unfold selected at found
  split at found
  · cases found
  · rename_i other
    refine ⟨other, ?_⟩
    dsimp only at found
    split at found
    · cases found
    · obtain ⟨key, keyed, found⟩ := bind_ok found
      split at found
      · cases found
      · rename_i route
        obtain ⟨rfl, rfl⟩ := Prod.mk.inj (Option.some.inj (Except.ok.inj found))
        exact ⟨key, keyed, route⟩
      · cases found

theorem Effect.deliver (s : Settlement) : Effect [] [] w (w.deliver s).2 := by
  unfold World.deliver
  split
  · exact .refl w
  · exact .refl w
  · exact .refl w
  · exact .raise .cancelled

theorem deliver_futures (s : Settlement) : (w.deliver s).2.futures = w.futures := by
  unfold deliver
  split <;> rfl

theorem deliver_agenda (s : Settlement) : (w.deliver s).2.agenda = w.agenda := by
  unfold deliver
  split <;> rfl

theorem deliver_proper {s : Settlement} (proper : s.Proper) : Outcome.Proper (w.deliver s).1 := by
  unfold deliver
  split
  · exact proper_ok _
  · exact proper_error proper
  · rename_i e
    have nature : e.fault.nature = .cancelled := proper e rfl
    exact proper_error (by simp [nature])
  · exact proper_error (by simp [raise, Fault.nature])

/-! ### Effects of acts -/

theorem Lost.effect (lost : Lost run h e pre t stack w notes w' next) : Effect notes [] w w' := by
  cases lost with
  | mk first rest => exact (first.trans (.note (h := .failed h e) trivial)).trans rest.effect

theorem Finished.total (finished : Finished plan run call body pre t stack w notes w' next) :
    Effect notes [] w w' := by
  cases finished with
  | lost lost => exact lost.effect
  | moot effect _ => exact effect
  | followed first _ _ effect => exact first.trans effect

theorem Act.effect {f : Focus} (act : Act plan w f notes tasks w' next) : Effect notes tasks w w' := by
  cases act with
  | played _ _ effect _ => exact effect
  | replayed _ effect _ => exact effect
  | launched _ _ effect _ _ _ => exact effect
  | delivered _ => exact .deliver _
  | sequenced _ _ finished => exact finished.total
  | inside _ _ effect => exact effect
  | outside _ _ effect _ _ _ => exact effect
  | joined distinct known => exact .joined distinct known
  | undispatched _ lost => exact lost.effect
  | plain _ _ effect _ => exact effect.trans (.tasked _ rfl)
  | @watched t run place position call rest chains stack args bodies w₁ f body explicit _ effect _ _ _ _
      unseen =>
    have made : (w₁.chainMember run call explicit body).1 = w₁.futures.size := size_onSettled
    have chained := chainMember_effect run call explicit unseen
    rw [made] at chained
    exact effect.trans chained
  | spawned fresh => exact (Effect.note (h := .spawned _) fresh).trans (.tasked _ rfl)
  | unasked lost => exact lost.effect
  | missed _ _ effect => exact effect
  | resolved effect _ _ _ => exact effect
  | returned finished => exact finished.total
  | completed finished => exact finished.total
  | followed => exact .note trivial
  | lingering => exact (Effect.note (h := .followed _) trivial).trans (.waited _)
  | rejected losing => exact losing.effect
  | unreturned lost => exact lost.effect
  | uncompleted lost => exact lost.effect
  | unfollowed losing => exact losing.effect
  | unfinished losing => exact losing.effect
  | _ => exact .refl w

theorem Plays.task (plays : Plays w t stack next) : next.task? = some t := by
  cases plays <;> rfl

theorem Lost.task (lost : Lost run h e pre t stack w notes w' next) : next.task? = some t := by
  cases lost
  rfl

theorem Finished.task (finished : Finished plan run call body pre t stack w notes w' next) :
    next.task? = some t := by
  cases finished with
  | lost lost => exact lost.task
  | moot _ _ => rfl
  | followed _ _ _ _ => rfl

theorem Act.task {f : Focus} (act : Act plan w f notes tasks w' next) :
    f.task?.isSome ∧ next.task? = f.task? := by
  cases act with
  | played _ _ _ plays => exact ⟨rfl, plays.task⟩
  | replayed _ _ plays => exact ⟨rfl, plays.task⟩
  | sequenced _ _ finished => exact ⟨rfl, finished.task⟩
  | undispatched _ lost => exact ⟨rfl, lost.task⟩
  | unasked lost => exact ⟨rfl, lost.task⟩
  | returned finished => exact ⟨rfl, finished.task⟩
  | completed finished => exact ⟨rfl, finished.task⟩
  | unreturned lost => exact ⟨rfl, lost.task⟩
  | uncompleted lost => exact ⟨rfl, lost.task⟩
  | _ => exact ⟨rfl, rfl⟩

theorem Plays.proper (plays : Plays w t stack next) : next.Proper := by
  cases plays with
  | left proper => exact proper
  | entered _ _ _ _ _ => trivial

theorem Lost.proper (lost : Lost run h e pre t stack w notes w' next) : next.Proper := by
  cases lost with
  | mk _ rest => exact rest.proper

theorem Finished.proper (finished : Finished plan run call body pre t stack w notes w' next) :
    next.Proper := by
  cases finished with
  | lost lost => exact lost.proper
  | moot _ _ => exact proper_ok _
  | followed _ _ _ _ => trivial

theorem Act.proper {f : Focus} (act : Act plan w f notes tasks w' next) (before : f.Proper)
    (settlements : ∀ f s, w.settlement? f = some s → s.Proper) : next.Proper := by
  cases act with
  | played _ _ _ plays => exact plays.proper
  | replayed _ _ plays => exact plays.proper
  | delivered settled => exact deliver_proper (settlements _ _ settled)
  | sequenced _ _ finished => exact finished.proper
  | undispatched _ lost => exact lost.proper
  | unasked lost => exact lost.proper
  | missed ordinary _ _ =>
    exact proper_error (by simp [ordinary])
  | resolved _ proper _ _ => exact proper
  | returned finished => exact finished.proper
  | completed finished => exact finished.proper
  | rejected losing => exact losing.proper
  | unreturned lost => exact lost.proper
  | uncompleted lost => exact lost.proper
  | unfollowed losing => exact losing.proper
  | unfinished losing => exact losing.proper
  | abandoned => exact before
  | ungathered => exact before
  | exhausted => exact proper_ok _
  | skipped _ => exact proper_ok _
  | absent _ => exact proper_ok _
  | unrouted _ => exact proper_ok _
  | gathered => exact proper_ok _
  | followed => exact proper_ok _
  | finished => exact proper_ok _
  | _ => trivial

/-! ### The act of each routine -/

theorem plays_enterScript (scope : Scope) (rest : Remainder) (t : FutureId) (stack : List Frame)
    (w : World) : ∃ w₁ next, Effect [] [] w w₁ ∧ Plays w₁ t stack next ∧
      w.enterScript scope rest t stack = w₁.focusOn next := by
  have played := Effect.scripted (played_runRemainder scope rest w).scripted
  unfold World.enterScript
  split <;> rename_i same <;> rw [same] at played
  · exact ⟨_, _, played, .left (proper_ok _), rfl⟩
  · exact ⟨_, _, played, .left (proper_ok _), rfl⟩
  · exact ⟨_, _, played.trans (leaving_effect _), .left (leaving_proper _), rfl⟩
  · rename_i ticks rest w₁
    exact ⟨w₁, _, played, .entered (.sleep ticks) [.script scope rest] rfl
      (by simp [Frame.run?]) (by simp), rfl⟩
  · rename_i args rest w₁
    exact ⟨w₁, _, played, .entered (.runner args) [.script scope rest] rfl
      (by simp [Frame.run?]) (by simp), rfl⟩

theorem lead_enterRunner {w₁ : World} {r : Routine} {args : Value} (own : r.run? = none)
    (other : ∀ f, r ≠ .wait f) (first : Effect [] [] w w₁) (records : w₁.records = w.records)
    (futures : w₁.futures = w.futures) :
    Leads plan w (.enter t r stack) (w₁.enterRunner args t stack) := by
  unfold World.enterRunner
  split
  · rename_i f failed
    have proper := proper_error (e := (w₁.raise f).1) (entriesOf_nature failed)
    exact ⟨_, _, _, _, .played own other (first.trans (.raise f)) (.left proper), rfl⟩
  · rename_i entries _
    have launched := first.trans (startRun_effect (w := w₁) entries)
    have pushed : (w₁.startRun entries).2.records = w₁.records.push
        { args := (w₁.heap.newDict entries).1, started := w₁.clock, outcome := w₁.futures.size } :=
      (newTask_sameRuns (.drive w₁.records.size)).records
    have outcome : (w₁.startRun entries).2.outcomeOf w₁.records.size = w₁.futures.size := by
      unfold outcomeOf record?
      rw [pushed]
      simp
    rw [records] at pushed launched outcome
    rw [futures] at pushed launched outcome
    have act : Act plan w (.enter t r stack) [] [(w.futures.size + 1, .drive w.records.size)]
        (w₁.startRun entries).2 (.enter t (.wait w.futures.size) (.runner w.records.size :: stack)) :=
      .launched own other launched pushed rfl rfl
    refine ⟨_, _, _, _, act, ?_⟩
    have run : (w₁.startRun entries).1 = w.records.size := records ▸ rfl
    dsimp only
    rw [run, outcome]
    rfl

theorem Lost.of_completed {other : RunId} {h' : Head} {r : Result} {payload : Entries}
    (lost : Lost run h e pre t stack w notes w' next) (noted : (other, .completed h' r payload) ∈ notes) :
    (other, .completed h' r payload) ∈ pre := by
  cases lost with
  | mk _ rest =>
    rcases List.mem_append.mp noted with later | member
    · obtain ⟨ms, x, same⟩ := rest.only _ later
      cases same
    · exact (List.mem_cons.mp member).resolve_left (by simp)

theorem resultOf_result {part : String} {x : Reported} {r : Result} (found : w.resultOf part x = .ok r) :
    x = .result r := by
  cases x with
  | result r' =>
    obtain rfl := Except.ok.inj found
    rfl
  | value v => cases found

theorem lost_failNode (plan : Plan) (run : RunId) (node : Node) (e : Raised) (t : FutureId)
    (stack : List Frame) {w₁ : World} (first : Effect pre [] w w₁) :
    ∃ notes w' next, Lost run node.head e pre t stack w notes w' next ∧
      w₁.failNode plan run node t stack e = w'.focusOn next := by
  obtain ⟨rejections, losing⟩ := handleFailure_catching plan run node e (w₁.note run (.failed node.head e))
  exact ⟨_, _, _, .mk first losing, rfl⟩

theorem finished_finishCall (plan : Plan) (call : Call) (body : Option FutureId) (t : FutureId)
    (stack : List Frame) (x : Reported) {w₁ : World} (first : Effect pre [] w w₁)
    (fresh : w₁.isSettled run = false) :
    ∃ notes w' next, Finished plan run call body pre t stack w notes w' next ∧
      w₁.finishCall plan run call x body t stack = w'.focusOn next ∧ ∀ r payload,
        (run, .completed call.node.head r payload) ∈ notes →
          (run, .completed call.node.head r payload) ∈ pre ∨ x = .result r := by
  unfold finishCall
  split
  · rename_i f _
    obtain ⟨notes, w', next, lost, same⟩ := lost_failNode plan run call.node (w₁.raise f).1 t stack
      (first.trans (.raise f))
    exact ⟨notes, w', next, .lost lost, same, fun r payload noted => .inl (lost.of_completed noted)⟩
  · rename_i r w₂ ok
    obtain ⟨found, done⟩ := completeReport_ok ok
    obtain ⟨payload, effect⟩ := complete_effect fresh done
    refine ⟨_, _, _, .followed first fresh done effect, rfl, fun r' payload' noted => ?_⟩
    rcases List.mem_cons.mp noted with same | earlier
    · obtain ⟨-, rfl, -⟩ := Happening.completed.inj (Prod.mk.inj same).2
      exact .inr (resultOf_result found)
    · exact .inl earlier

theorem finished_collectCall (plan : Plan) (run : RunId) (call : Call) (t : FutureId)
    (stack : List Frame) {w₁ : World} (first : Effect pre [] w w₁) :
    ∃ notes w' next, Finished plan run call none pre t stack w notes w' next ∧
      w₁.collectCall plan run call t stack = w'.focusOn next := by
  have collected := first.trans (collectReport_effect call.completion)
  unfold collectCall
  split <;> rename_i same <;> rw [same] at collected
  · rename_i f w₂
    obtain ⟨notes, w', next, lost, same⟩ := lost_failNode plan run call.node (w₂.raise f).1 t stack
      (collected.trans (.raise f))
    exact ⟨notes, w', next, .lost lost, same⟩
  · split
    · rename_i past
      exact ⟨_, _, _, .moot collected past, rfl⟩
    · rename_i fresh
      obtain ⟨notes, w', next, finished, same, -⟩ := finished_finishCall plan call none t stack _ collected
        (by simpa using fresh)
      exact ⟨notes, w', next, finished, same⟩

theorem lead_enterSequential (fresh : w.isSettled run = false) (sources : w.Sourced) :
    Leads plan w (.enter t (.sequential run node) stack)
      (w.enterSequential plan run node t stack) := by
  have described := Effect.described (w := w) (descriptor plan node .sequential)
  have records := newCompletion_records (w := w) (descriptor plan node .sequential)
  have sources' := sources.newCompletion (descriptor plan node .sequential)
  have size := newCompletion_size (w := w) (descriptor plan node .sequential)
  unfold enterSequential
  dsimp only
  generalize w.newCompletion (descriptor plan node .sequential) = x
    at described records sources' size ⊢
  obtain ⟨c, w₁⟩ := x
  dsimp only at described records sources' size ⊢
  have begun := described.trans (beginNode_effect plan run node)
  have loop := beginNode_loop (w := w₁) plan run node
  have within : w.futures.size ≤ (w₁.beginNode plan run node).futures.size := loop.futures ▸ size
  have fresh' : (w₁.beginNode plan run node).isSettled run = false :=
    (isSettled_congr (beginNode_records.trans records) run).trans fresh
  have called := begun.trans (callAction_effect plan node (.completion .sequential c)
    (plan.tree.actionFor node).acceptsCompletion fresh')
  have done := callAction_invoked (w := w₁.beginNode plan run node) plan run node
    (.completion .sequential c) (plan.tree.actionFor node).acceptsCompletion
  let call : Call := ⟨node, c, w₁.clock⟩
  split <;> rename_i same <;> rw [same] at called
  · rename_i e w₂
    obtain ⟨notes, w', next, lost, same⟩ := lost_failNode plan run node e t stack called
    exact ⟨notes, [], w', next, .sequenced call fresh (.lost lost) described.clock, same⟩
  · obtain ⟨notes, w', next, finished, same⟩ := finished_collectCall plan run call t stack called
    exact ⟨notes, [], w', next, .sequenced call fresh finished described.clock, same⟩
  · have noted := called.trans (.began run node.head none)
    exact ⟨_, [], _, _, .inside call fresh noted described.clock, rfl⟩
  · rename_i f w₂
    have noted := called.trans (.began run node.head (some f))
    obtain ⟨new, -, unseen⟩ := callAction_fresh (sources'.beginNode plan run node) same
    rw [same] at done
    obtain ⟨-, own⟩ := done.fresh f rfl
    exact ⟨_, [], _, _, .outside call fresh noted (Nat.le_trans within new) own unseen described.clock, rfl⟩

theorem chainMember_fst {explicit : Bool} {b : FutureId} :
    (w.chainMember run call explicit b).1 = w.futures.size := size_onSettled

theorem lead_chained {f : Focus} {w₁ : World} {explicit : Bool} {b : FutureId} {place : Path}
    {position : Nat} {rest : List Entry} {chains : List FutureId}
    (act : Act plan w f notes tasks (w₁.chainMember run call explicit b).2
      (.enter t (.dispatch run place position rest (chains ++ [w₁.futures.size])) stack)) :
    Leads plan w f ((w₁.chainMember run call explicit b).2.enter t (.dispatch run place position rest
      (chains ++ [(w₁.chainMember run call explicit b).1])) stack) := by
  refine ⟨_, _, _, _, act, ?_⟩
  rw [chainMember_fst]
  rfl

theorem lead_dispatchMember (node : Node) {place : Path} {position : Nat} {rest : List Entry}
    {chains : List FutureId} (fresh : w.isSettled run = false) (sources : w.Sourced) :
    Leads plan w (.enter t (.dispatch run place position (node.entry :: rest) chains) stack)
      (match w.dispatchMember plan run node with
        | (.error e, w) => leaveWith (w.failDispatch plan run e) t stack
        | (.ok chain, w) =>
          w.enter t (.dispatch run place (position + 1) rest (chains ++ [chain])) stack) := by
  have described := Effect.described (w := w) (descriptor plan node .concurrent)
  have made' := sources.newCompletion (descriptor plan node .concurrent)
  have size := newCompletion_size (w := w) (descriptor plan node .concurrent)
  have records := newCompletion_records (w := w) (descriptor plan node .concurrent)
  have report := newCompletion_report (w := w) plan node
  have own : (w.newCompletion (descriptor plan node .concurrent)).1 = w.completions.size := rfl
  unfold dispatchMember
  generalize w.newCompletion (descriptor plan node .concurrent) = made
    at described made' size records report own ⊢
  obtain ⟨c, w₁⟩ := made
  dsimp only at described made' size records report own ⊢
  have begun := described.trans (beginNode_effect plan run node)
  have loop := beginNode_loop (w := w₁) plan run node
  have sources' : (w₁.beginNode plan run node).Sourced := made'.beginNode plan run node
  have size' : w.futures.size ≤ (w₁.beginNode plan run node).futures.size := loop.futures ▸ size
  have fresh' : (w₁.beginNode plan run node).isSettled run = false :=
    (isSettled_congr (beginNode_records.trans records) run).trans fresh
  have called := callAction_effect plan node (.completion .concurrent c)
    (plan.tree.actionFor node).acceptsCompletion fresh'
  have done := callAction_invoked (w := w₁.beginNode plan run node) plan run node
    (.completion .concurrent c) (plan.tree.actionFor node).acceptsCompletion
  have first := (Grown.effect ((beginNode_effect (w := w₁) plan run node).trans called)).firsts c _ report
  have all := begun.trans called
  let call : Call := ⟨node, c, w₁.clock⟩
  generalize same : (w₁.beginNode plan run node).callAction plan run node (.completion .concurrent c)
    (plan.tree.actionFor node).acceptsCompletion = result at all done first ⊢
  obtain ⟨e | returned, w₂⟩ := result
  · have running : (w₂.note run (.failed node.head e)).isSettled run = false := by
      rcases all.status run with same | ⟨-, -, settled⟩
      · exact (isSettled_of_status same).trans fresh
      · simp at settled
    obtain ⟨rejections, losing⟩ := failDispatch_catching plan run e (w₂.note run (.failed node.head e)) running
    exact ⟨_, [], _, _, .undispatched fresh (.mk all losing), rfl⟩
  · cases returned with
    | plain type =>
      dsimp only at all first ⊢
      unfold chainPlain
      dsimp only
      split
      · exact ⟨_, _, _, _, .plain call fresh all first own rfl described.clock, rfl⟩
      · have recorded := Effect.record (w := w₂) c (.result {})
        exact ⟨_, _, _, _, .plain call fresh (all.trans recorded)
          ((Grown.effect recorded).firsts c _ first) own rfl described.clock, rfl⟩
    | routine scope steps =>
      dsimp only at all first done ⊢
      have sources₂ : w₂.Sourced :=
        Sourced.scripted (w := (w₁.beginNode plan run node).note run _) sources' done.scripted
      have within : (w₁.beginNode plan run node).futures.size ≤ w₂.futures.size :=
        done.scripted.size_le
      have scripts : ∀ x ∈ [(w₂.futures.size, Routine.script scope ⟨[], steps⟩)] ++ ([] ++ ([] ++ [])),
          x.2.run? = none ∧ x.2.begins := by simp [Routine.run?, Routine.begins]
      have made : w₂.futures.size < (w₂.newTask (.script scope ⟨[], steps⟩)).2.futures.size :=
        purpose?_lt ((purpose?_newTask _).trans (if_pos rfl))
      exact lead_chained (.watched call _ fresh (all.trans (.tasked (.script scope ⟨[], steps⟩) rfl))
        scripts ((Grown.newTask (.script scope ⟨[], steps⟩)).firsts c _ first)
        (Nat.le_trans size' within) made (newTask_unseen sources₂ _) own rfl described.clock)
    | future f =>
      dsimp only at all first ⊢
      obtain ⟨old, known, unseen⟩ := callAction_fresh sources' same
      exact lead_chained (.watched call _ fresh all (by simp) first (Nat.le_trans size' old) known
        unseen own rfl described.clock)

theorem waitedFor_some {c : CompletionId} {f : FutureId} (waits : w.waitedFor c = .ok (some f)) :
    w.first? c = some f := by
  unfold waitedFor at waits
  split at waits
  · cases waits
  · unfold awaited at waits
    split at waits
    · rename_i d g known
      rw [first?, known]
      split at waits
      · cases waits
      · exact Except.ok.inj waits
      · cases waits
    · cases waits

/-- Waiting for a descriptor in an ordinary way fails in an ordinary way. -/
theorem waitedFor_nature {c : CompletionId} {f : Fault} (failed : w.waitedFor c = .error f) :
    f.nature = .ordinary := by
  unfold waitedFor at failed
  split at failed
  · rename_i fault delegates
    obtain rfl := Except.error.inj failed
    unfold delegate at delegates
    split at delegates
    · unfold Descriptor.delegate at delegates
      split at delegates <;> cases delegates
      rfl
    · cases delegates
  · unfold awaited at failed
    split at failed
    · split at failed
      · rename_i fault books
        obtain rfl := Except.error.inj failed
        unfold Descriptor.book at books
        split at books <;> cases books
        rfl
      · cases failed
      · cases failed
        rfl
    · cases failed

theorem waitedFor_none {c : CompletionId} (waits : w.waitedFor c = .ok none) : w.first? c = none := by
  unfold waitedFor at waits
  split at waits
  · cases waits
  · unfold awaited at waits
    split at waits
    · split at waits <;> cases waits
    · rename_i other
      rw [first?, Option.bind_eq_none_iff]
      rintro ⟨d, recorded⟩ known
      cases recorded with
      | first f => exact absurd known (other d f)
      | nothing => rfl
      | latest _ _ => rfl

theorem lead_enterRoutine (plan : Plan) {r : Routine} (steady : w.Steady) (busy : w.focus = .enter t r stack) :
    Leads plan w w.focus (w.enterRoutine plan t stack r) ∨
    (∃ f, r = .wait f ∧ w.settlement? f = none ∧ w.enterRoutine plan t stack r = w.suspend t f stack) ∨
    r = .yield ∧ w.enterRoutine plan t stack r = ((w.setPosition t (.suspended stack) none).post
      w.agenda.loop (.resume t)).focusOn .idle := by
  have none := Effect.refl w
  rw [busy]
  unfold World.enterRoutine
  split
  · rename_i scope rest
    obtain ⟨w₁, next, effect, plays, same⟩ := plays_enterScript scope rest t stack w
    exact .inl ⟨_, _, _, _, .played rfl (by simp) effect plays, same⟩
  · exact .inl (lead_enterRunner rfl (by simp) (.kept (.marked _)) rfl rfl)
  · exact .inl (lead_enterRunner rfl (by simp) none rfl rfl)
  · rename_i ticks args
    exact .inl ⟨_, _, _, _, .played rfl (by simp) none (.entered (.sleep ticks)
      [.delayed args] rfl (by simp [Frame.run?]) (by simp)), rfl⟩
  · exact .inl ⟨_, _, _, _, .driven, rfl⟩
  · exact .inl ⟨_, _, _, _, .exhausted, rfl⟩
  · rename_i run place position entry rest
    split
    · rename_i past
      exact .inl ⟨_, _, _, _, .skipped past, rfl⟩
    · rename_i fresh
      have fresh' : w.isSettled run = false := by simpa using fresh
      cases entry with
      | node head outputs => exact .inl ⟨_, _, _, _, .single ⟨head, outputs⟩ fresh', rfl⟩
      | nested members => exact .inl ⟨_, _, _, _, .grouped fresh', rfl⟩
  · exact .inl (lead_enterSequential (steady.sequential _ _ _ _ busy) steady.sources)
  · obtain ⟨-, distinct, known⟩ := steady.dispatch _ _ _ _ _ _ _ busy
    rename_i run place position chains
    have made : (w.newJoint chains).1 = w.futures.size := by
      unfold newJoint
      dsimp only
      split <;> rfl
    refine .inl ⟨_, _, _, _, .joined distinct known, ?_⟩
    dsimp only
    rw [made]
    rfl
  · obtain ⟨fresh, -, -⟩ := steady.dispatch _ _ _ _ _ _ _ busy
    rename_i run place position head outputs rest chains
    exact .inl (lead_dispatchMember ⟨head, outputs⟩ fresh steady.sources)
  · obtain ⟨fresh, -, -⟩ := steady.dispatch _ _ _ _ _ _ _ busy
    exact .inl ⟨_, _, _, _, .spawned fresh, rfl⟩
  · rename_i run call body
    split
    · rename_i f waits
      exact .inl ⟨_, _, _, _, .asked (waitedFor_some waits), rfl⟩
    · rename_i waits
      exact .inl ⟨_, _, _, _, .absent (waitedFor_none waits), rfl⟩
    · rename_i f failed
      obtain ⟨notes, w', next, lost, same⟩ := lost_failNode plan run call.node (w.raise f).1 t stack
        (Effect.raise (w := w) f)
      exact .inl ⟨notes, [], w', next, .unasked lost (waitedFor_nature failed), same⟩
  · rename_i run node r
    split
    · rename_i f failed
      have noted : Effect [(run, .failed node.head (w.raise f).1)] [] (w.raise f).2
          ((w.raise f).2.note run (.failed node.head (w.raise f).1)) := .note trivial
      exact .inl ⟨_, _, _, _, .missed (selected_nature failed) failed ((Effect.raise f).trans noted), rfl⟩
    · rename_i found
      exact .inl ⟨_, _, _, _, .unrouted (selected_none found), rfl⟩
    · rename_i declared inner found
      obtain ⟨given, key, selects, route⟩ := selected_some found
      exact .inl ⟨_, _, _, _, .routed given selects route, rfl⟩
  · rename_i f
    split
    · rename_i s settled
      exact .inl ⟨_, _, _, _, .delivered settled, rfl⟩
    · rename_i pending
      exact .inr (.inl ⟨f, rfl, pending, rfl⟩)
  · exact .inr (.inr ⟨rfl, rfl⟩)
  · exact .inl ⟨_, _, _, _, .played rfl (by simp) none (.entered .yield [] rfl
      (by simp) (by simp)), rfl⟩
  · rename_i ticks _
    refine .inl ⟨_, _, _, _, .played rfl (by simp) (.scripted (.timed _ .ok)) (.entered
      (.wait w.futures.size) [] rfl (by simp) fun f same => ?_), rfl⟩
    obtain rfl := Routine.wait.inj same
    exact ⟨(purpose?_newFuture (w := w) (.plain .timed)).trans (if_pos rfl), (size_newFuture (w := w) _).symm⟩

theorem resolve_settles (run : RunId) (known : (w.record? run).isSome) : (w.resolve run).2.isSettled run := by
  obtain ⟨r, found⟩ := Option.isSome_iff_exists.mp known
  unfold resolve
  rw [found]
  dsimp only
  split
  · rename_i past
    rw [isSettled, status_of_record found]
    exact past
  · generalize w.elapsed r.started = ms
    have reached : ((w.setStatus run (.resolved ms)).log (.resolved ms)).status run = .resolved ms :=
      status_setStatus found (.resolved ms)
    split
    · have same := status_congr (settle_sameRuns (w := (w.setStatus run (.resolved ms)).log (.resolved ms))
        (f := r.outcome) (s := .value (.record run))).records run
      rw [isSettled, same, reached]
      rfl
    · rw [isSettled, reached]
      rfl

theorem resolve_refuses {f : Fault} {w' : World} (failed : w.resolve run = (.error f, w')) :
    ∃ r, w.record? run = some r ∧ r.status = .running ∧ w.isPending r.outcome = false := by
  unfold resolve at failed
  split at failed
  · cases failed
  · rename_i r known
    split at failed
    · cases failed
    · rename_i fresh
      dsimp only at failed
      split at failed
      · cases failed
      · rename_i past
        have pends : ¬ w.isPending r.outcome := past
        refine ⟨r, known, ?_, by simpa using pends⟩
        cases status : r.status <;> simp_all [Status.isSettled]

theorem lead_resumeFrame (plan : Plan) (t : FutureId) (stack : List Frame) (v : Yield) (frame : Frame)
    (w : World) :
    Leads plan w (.leave t (.ok v) (frame :: stack)) (w.resumeFrame plan t stack v frame) := by
  have none := Effect.refl w
  unfold World.resumeFrame
  split
  · rename_i scope rest
    exact ⟨_, _, _, _, .replayed rfl none (.entered (.script scope rest) [] rfl
      (by simp) (by simp)), rfl⟩
  · exact ⟨_, _, _, _, .replayed rfl none (.left (proper_ok v)), rfl⟩
  · rename_i args
    exact ⟨_, _, _, _, .replayed rfl none (.entered (.runner args) [] rfl
      (by simp) (by simp)), rfl⟩
  · rename_i run
    obtain ⟨notes, resolved, only⟩ := resolve_effect (w := w) run
    have settles := resolve_settles (w := w) run
    split <;> rename_i same <;> rw [same] at resolved settles
    · exact ⟨_, _, _, _, .resolved resolved (proper_ok _) only settles (by simp), rfl⟩
    · rename_i f w₁
      exact ⟨_, _, _, _, .resolved (resolved.trans (.raise f)) (proper_error (resolve_nature same))
        only settles fun _ _ => resolve_refuses same, rfl⟩
  · exact ⟨_, _, _, _, .resumed, rfl⟩
  · rename_i run call
    have noted : Effect [(run, .ended call.node.head)] [] w
        (w.note run (.ended call.node.head)) := .note trivial
    obtain ⟨notes, w', next, finished, same⟩ := finished_collectCall plan run call t stack noted
    exact ⟨notes, [], w', next, .returned finished, same⟩
  · exact ⟨_, _, _, _, .gathered, rfl⟩
  · rename_i run call body
    split
    · rename_i past
      exact ⟨_, _, _, _, .completed (.moot (.log _) past) (by simp), rfl⟩
    · rename_i fresh
      have reported : (match v with | .reported x => x | _ => .result {}) = v.report := by
        cases v <;> rfl
      obtain ⟨notes, w', next, finished, same, result⟩ := finished_finishCall plan call body t stack v.report
        none (by simpa using fresh)
      rw [← reported] at same
      exact ⟨notes, [], w', next, .completed finished fun r payload noted =>
        (result r payload noted).resolve_left (by simp), same⟩
  · rename_i run call body
    cases body with
    | none => exact ⟨_, _, _, _, .followed, rfl⟩
    | some b => exact ⟨_, _, _, _, .lingering, rfl⟩
  · exact ⟨_, _, _, _, .finished, rfl⟩

theorem lead_unwindFrame (plan : Plan) (t : FutureId) (stack : List Frame) (frame : Frame) (w : World)
    (proper : e.fault.nature ≠ .stopIteration) :
    Leads plan w (.leave t (.error e) (frame :: stack)) (w.unwindFrame plan t stack e frame) := by
  have none := Effect.refl w
  have fatal := proper_error proper
  unfold World.unwindFrame
  split
  · rename_i run
    split
    · rename_i other
      exact ⟨_, _, _, _, .rejected (.fatally other), rfl⟩
    · rename_i ordinary
      have tried := reject_rejecting plan run e w
      split <;> rename_i same <;> rw [same] at tried
      · obtain ⟨notes, losing⟩ := tried.losing ordinary (.refl _) (proper_error tried.refusal) (by simp)
        exact ⟨_, _, _, _, .rejected losing, rfl⟩
      · obtain ⟨notes, losing⟩ := tried.losing ordinary (.refl _) (proper_ok .nothing) (by simp)
        exact ⟨_, _, _, _, .rejected losing, rfl⟩
  · rename_i run call
    obtain ⟨notes, w', next, lost, same⟩ := lost_failNode plan run call.node e t stack none
    exact ⟨notes, [], w', next, .unreturned lost, same⟩
  · rename_i run call body
    obtain ⟨notes, w', next, lost, same⟩ := lost_failNode plan run call.node e t stack none
    exact ⟨notes, [], w', next, .uncompleted lost, same⟩
  · rename_i run call body
    obtain ⟨notes, losing⟩ := handleFailure_catching plan run call.node e w
    exact ⟨_, _, _, _, .unfollowed losing, rfl⟩
  · rename_i run call body
    obtain ⟨notes, losing⟩ := handleFailure_catching plan run call.node e w
    exact ⟨_, _, _, _, .unfinished losing, rfl⟩
  · rename_i scope rest
    unfold World.unwindScript
    split
    · exact ⟨_, _, _, _, .replayed rfl none (.left fatal), rfl⟩
    · rename_i outer _
      split
      · exact ⟨_, _, _, _, .replayed rfl (.scripted (scripted_emit _ _)) (.entered
          (.script scope { rest with attempts := outer }) [] rfl (by simp) (by simp)), rfl⟩
      · exact ⟨_, _, _, _, .replayed rfl none (.left fatal), rfl⟩
  · exact ⟨_, _, _, _, .replayed rfl none (.left fatal), rfl⟩
  · exact ⟨_, _, _, _, .replayed rfl none (.left fatal), rfl⟩
  · exact ⟨_, _, _, _, .abandoned, rfl⟩
  · exact ⟨_, _, _, _, .ungathered, rfl⟩

end World

end Conductor
