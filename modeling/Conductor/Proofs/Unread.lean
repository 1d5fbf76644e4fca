import Conductor.Machine.Step

/-!
# What is shown and never read

The states of the nodes, the log and the journal are there to be looked at. Nothing that goes on in a machine
depends on them: whatever is shown, futures settle, descriptors record and scripts run in the same way, and
what is added to the log is the same. Nor does any of these look at what the task at work is at.
-/

namespace Conductor

/-- What a machine shows: the states of its nodes, and a log and a journal to which it adds. The task at work
may be at something else. -/
structure Display where
  nodes : Array NodeState
  logs : Array LogEntry
  journal : List (RunId × Nat × Happening)
  focus : Focus → Focus

namespace World

/-- The same state, but that it shows something else, with its own log and journal as the latest. -/
def showing (w : World) (d : Display) : World :=
  { w with nodes := d.nodes, logs := d.logs ++ w.logs, journal := w.journal ++ d.journal, focus := d.focus w.focus }

end World

def Display.behind {α : Type} (d : Display) (r : α × World) : α × World := (r.1, r.2.showing d)

namespace World

variable {w : World} {d : Display} {f : FutureId} {c : CompletionId} {scope : Scope}

@[simp] theorem behind_mk {α : Type} (x : α) : d.behind (x, w) = (x, w.showing d) := rfl

@[simp] theorem behind_fst {α : Type} (r : α × World) : (d.behind r).1 = r.1 := rfl

@[simp] theorem behind_snd {α : Type} (r : α × World) : (d.behind r).2 = r.2.showing d := rfl

/-! ### What is read -/

@[simp] theorem heap_showing : (w.showing d).heap = w.heap := rfl

@[simp] theorem agenda_showing : (w.showing d).agenda = w.agenda := rfl

@[simp] theorem clock_showing : (w.showing d).clock = w.clock := rfl

@[simp] theorem future?_showing : (w.showing d).future? f = w.future? f := rfl

@[simp] theorem purpose?_showing : (w.showing d).purpose? f = w.purpose? f := rfl

@[simp] theorem settlement?_showing : (w.showing d).settlement? f = w.settlement? f := rfl

@[simp] theorem isPending_showing : (w.showing d).isPending f = w.isPending f := rfl

@[simp] theorem completion?_showing : (w.showing d).completion? c = w.completion? c := rfl

@[simp] theorem isCollected_showing (e : Descriptor) (collected : Bool) :
    (w.showing d).isCollected e collected = w.isCollected e collected := rfl

@[simp] theorem attributesIn?_showing (v : Value) : (w.showing d).attributesIn? v = w.attributesIn? v := rfl

/-! ### Futures and the queue -/

@[simp] theorem log_showing (e : LogEntry) : (w.showing d).log e = (w.log e).showing d := by
  simp only [log, showing, Array.append_push]

@[simp] theorem raise_showing (x : Fault) : (w.showing d).raise x = d.behind (w.raise x) := rfl

@[simp] theorem modifyFuture_showing (change : Future → Future) :
    (w.showing d).modifyFuture f change = (w.modifyFuture f change).showing d := rfl

@[simp] theorem repurpose_showing (p : Purpose) : (w.showing d).repurpose f p = (w.repurpose f p).showing d := rfl

@[simp] theorem post_showing (loop : Nat) (j : Job) : (w.showing d).post loop j = (w.post loop j).showing d := by
  by_cases own : loop = w.agenda.loop
  · have own' : loop = (w.showing d).agenda.loop := own
    rw [post, post, if_pos own, if_pos own']
    rfl
  · have own' : ¬ loop = (w.showing d).agenda.loop := own
    rw [post, post, if_neg own, if_neg own']
    split <;> rfl

@[simp] theorem postAll_showing (loop : Nat) (js : List Job) :
    (w.showing d).postAll loop js = (w.postAll loop js).showing d := by
  simp only [postAll]
  induction js generalizing w with
  | nil => rfl
  | cons j rest ih => simp only [List.foldl_cons, post_showing, ih]

@[simp] theorem settle_showing (s : Settlement) : (w.showing d).settle f s = (w.settle f s).showing d := by
  simp only [settle, future?_showing, modifyFuture_showing, postAll_showing]
  cases w.future? f with
  | none => rfl
  | some x => dsimp only; split <;> rfl

@[simp] theorem onSettled_showing (j : Job) : (w.showing d).onSettled f j = (w.onSettled f j).showing d := by
  simp only [onSettled, future?_showing, modifyFuture_showing, post_showing]
  cases w.future? f with
  | none => rfl
  | some x => dsimp only; split <;> rfl

@[simp] theorem failFuture_showing (e : Raised) :
    (w.showing d).failFuture f e = (w.failFuture f e).map (·.showing d) := by
  simp only [failFuture, isPending_showing, settle_showing]
  split
  · rfl
  · split <;> rfl

@[simp] theorem newFuture_showing (p : Purpose) : (w.showing d).newFuture p = d.behind (w.newFuture p) := rfl

@[simp] theorem newTask_showing (r : Routine) : (w.showing d).newTask r = d.behind (w.newTask r) := by
  simp only [newTask, newFuture_showing, agenda_showing, behind_fst, behind_snd, post_showing, behind_mk]

@[simp] theorem newJoint_showing (children : List FutureId) :
    (w.showing d).newJoint children = d.behind (w.newJoint children) := by
  have registered (g : FutureId) (l : List FutureId) (w : World) :
      l.foldl (fun w child => w.onSettled child (.childEnded g child)) (w.showing d)
        = (l.foldl (fun w child => w.onSettled child (.childEnded g child)) w).showing d := by
    induction l generalizing w with
    | nil => rfl
    | cons c rest ih => simp only [List.foldl_cons, onSettled_showing, ih]
  simp only [newJoint, newFuture_showing, behind_fst, behind_snd, settle_showing, registered]
  split <;> rfl

@[simp] theorem setPosition_showing (t : FutureId) (p : Position) (waiting : Option FutureId) :
    (w.showing d).setPosition t p waiting = (w.setPosition t p waiting).showing d := by
  simp only [setPosition, purpose?_showing, repurpose_showing]
  cases w.purpose? t with
  | none => rfl
  | some x => cases x <;> rfl

@[simp] theorem deliver_showing (s : Settlement) : (w.showing d).deliver s = d.behind (w.deliver s) := by
  simp only [deliver, raise_showing]
  split <;> rfl

@[simp] theorem cancelWithin_showing (depth : Nat) :
    cancelWithin depth f (w.showing d) = d.behind (cancelWithin depth f w) := by
  induction depth generalizing f w with
  | zero => rfl
  | succ depth ih =>
    have each (l : List FutureId) (r : Bool × World) :
        l.foldl (fun acc child => (acc.1 || (cancelWithin depth child acc.2).1, (cancelWithin depth child acc.2).2))
          (d.behind r)
        = d.behind (l.foldl (fun acc child =>
          (acc.1 || (cancelWithin depth child acc.2).1, (cancelWithin depth child acc.2).2)) r) := by
      induction l generalizing r with
      | nil => rfl
      | cons c rest again =>
        rw [List.foldl_cons, List.foldl_cons, ← again]
        simp only [behind_snd, behind_fst, ih, behind_mk]
    simp only [cancelWithin, future?_showing]
    cases w.future? f with
    | none => rfl
    | some x =>
      dsimp only
      split
      · rfl
      · cases x.purpose with
        | plain role => exact congrArg (Prod.mk true) (settle_showing _)
        | joint children ended requested =>
          simp only [← behind_mk (d := d), each, behind_fst, behind_snd, repurpose_showing]
          split <;> rfl
        | task position waiting mustCancel =>
          cases waiting with
          | none => rfl
          | some g =>
            simp only [ih, behind_fst, behind_snd, repurpose_showing]
            split <;> rfl

@[simp] theorem cancel_showing : (w.showing d).cancel f = (w.cancel f).showing d :=
  congrArg Prod.snd (cancelWithin_showing _)

@[simp] theorem childEnded_showing (joint child : FutureId) :
    (w.showing d).childEnded joint child = (w.childEnded joint child).showing d := by
  simp only [childEnded, future?_showing, settlement?_showing, repurpose_showing, deliver_showing, raise_showing,
    settle_showing, behind_fst, behind_snd]
  cases w.future? joint with
  | none => rfl
  | some x =>
    cases w.settlement? child with
    | none => rfl
    | some s =>
      dsimp only
      cases x.purpose with
      | joint children ended requested =>
        dsimp only
        split
        · rfl
        · cases s with
          | value v =>
            dsimp only
            split
            · rfl
            · split <;> rfl
          | failed e => rfl
          | cancelled cause =>
            generalize World.deliver _ _ = r
            obtain ⟨_ | _, _⟩ := r
            · exact settle_showing _
            · rfl
      | plain _ => rfl
      | task _ _ _ => rfl

@[simp] theorem reachTime_showing (how : FutureEnd) :
    (w.showing d).reachTime f how = (w.reachTime f how).map (·.showing d) := by
  simp only [reachTime, settle_showing, raise_showing, failFuture_showing, behind_fst, behind_snd]
  cases how with
  | ok => rfl
  | cancel => rfl
  | fail name message =>
    dsimp only
    split <;> rfl

@[simp] theorem schedule_showing (ticks : Nat) (j : Job) :
    (w.showing d).schedule ticks j = (w.schedule ticks j).showing d := rfl

@[simp] theorem nextTurn?_showing : (w.showing d).nextTurn? = w.nextTurn?.map (·.showing d) := by
  simp only [nextTurn?, agenda_showing]
  cases w.agenda.ready with
  | nil => cases w.agenda.timers <;> rfl
  | cons j rest => rfl

@[simp] theorem nextJob?_showing : (w.showing d).nextJob? = w.nextJob?.map d.behind := by
  simp only [nextJob?, agenda_showing]
  cases w.agenda.left with
  | zero => rfl
  | succ left => cases w.agenda.ready <;> rfl

/-! ### Completions -/

@[simp] theorem newCompletion_showing (e : Descriptor) :
    (w.showing d).newCompletion e = d.behind (w.newCompletion e) := by
  unfold newCompletion
  cases e.policy <;> rfl

@[simp] theorem record_showing (x : Reported) : (w.showing d).record c x = d.behind (w.record c x) := by
  simp only [record, completion?_showing, isCollected_showing, log_showing, settle_showing]
  cases w.completion? c with
  | none => rfl
  | some completion =>
    obtain ⟨e, recorded⟩ := completion
    cases recorded with
    | nothing => rfl
    | latest reported collected =>
      dsimp only
      cases w.isCollected e collected with
      | error f => rfl
      | ok collected' =>
        cases collected' with
        | false => rfl
        | true => cases e.node <;> rfl
    | first f =>
      dsimp only
      cases futureOf e f "done" <;> rfl

@[simp] theorem recordReport_showing (r : Except Fault Reported) :
    (w.showing d).recordReport c r = d.behind (w.recordReport c r) := by
  cases r with
  | ok x => exact record_showing x
  | error _ => rfl

@[simp] theorem collect_showing : (w.showing d).collect c = d.behind (w.collect c) := by
  simp only [collect, completion?_showing]
  cases w.completion? c with
  | none => rfl
  | some completion =>
    obtain ⟨e, recorded⟩ := completion
    cases recorded with
    | latest reported collected =>
      dsimp only
      cases e.book "_result" with
      | error f => rfl
      | ok v => rfl
    | nothing => rfl
    | first _ => rfl

@[simp] theorem failCompletion_showing (e : Raised) :
    (w.showing d).failCompletion c e = (w.failCompletion c e).map (·.showing d) := by
  simp only [failCompletion, completion?_showing, isPending_showing, failFuture_showing]
  cases w.completion? c with
  | none => rfl
  | some completion =>
    obtain ⟨x, recorded⟩ := completion
    cases recorded with
    | first f =>
      dsimp only
      cases futureOf x f "done" with
      | error fault => rfl
      | ok g => dsimp only; split <;> rfl
    | nothing => rfl
    | latest _ _ => rfl

@[simp] theorem writeAttribute_showing (name v : Value) :
    (w.showing d).writeAttribute c name v = d.behind (w.writeAttribute c name v) := by
  simp only [writeAttribute, attributesIn?_showing]
  split
  · rfl
  · rfl
  · cases w.attributesIn? v <;> rfl
  · rfl
  · rfl

@[simp] theorem removeAttribute_showing (e : Descriptor) (name : Value) :
    (w.showing d).removeAttribute c e name = d.behind (w.removeAttribute c e name) := by
  unfold removeAttribute
  split
  · rfl
  · rfl
  · rfl
  · split <;> rfl
  · rfl

@[simp] theorem callInherited_showing (e : Descriptor) (name : String) (i : Inherited) (arguments : List Value) :
    (w.showing d).callInherited c e name i arguments = d.behind (w.callInherited c e name i arguments) := by
  simp only [callInherited, writeAttribute_showing, removeAttribute_showing]
  split
  · rfl
  · split <;> rfl

@[simp] theorem callMethod_showing (e : Descriptor) (m : Method) (arguments : List Value) :
    (w.showing d).callMethod c e m arguments = d.behind (w.callMethod c e m arguments) := by
  simp only [callMethod, recordReport_showing, collect_showing, behind_fst, behind_snd]
  split
  · rfl
  · split
    · rfl
    · cases m <;> rfl

@[simp] theorem callMember_showing (m : Member) (arguments : List Value) :
    (w.showing d).callMember c m arguments = d.behind (w.callMember c m arguments) := by
  simp only [callMember, completion?_showing, recordReport_showing, callMethod_showing, callInherited_showing]
  cases w.completion? c with
  | none => rfl
  | some completion => cases m <;> rfl

@[simp] theorem callCompletion_showing (arguments : List Value) :
    (w.showing d).callCompletion c arguments = d.behind (w.callCompletion c arguments) := by
  simp only [callCompletion, completion?_showing, recordReport_showing]
  cases w.completion? c <;> rfl

/-! ### Scripts -/

@[simp] theorem failNow_showing (x : Fault) : (w.showing d).failNow x = d.behind (w.failNow x) := rfl

@[simp] theorem finishWith_behind (r : Except Fault Unit × World) :
    finishWith (d.behind r) = d.behind (finishWith r) := by
  obtain ⟨_ | _, _⟩ := r <;> rfl

@[simp] theorem finishHeap_showing (r : Except Fault Heap) :
    (w.showing d).finishHeap r = d.behind (w.finishHeap r) := by
  cases r <;> rfl

@[simp] theorem attributeOf_showing (v : Value) (name : String) :
    (w.showing d).attributeOf v name = w.attributeOf v name := rfl

@[simp] theorem callAttribute_showing (a : Attribute) (arguments : List Value) :
    (w.showing d).callAttribute a arguments = d.behind (w.callAttribute a arguments) := by
  cases a with
  | member c m => exact callMember_showing m arguments
  | commit =>
    simp only [callAttribute]
    split <;> rfl
  | plain v m => rfl

@[simp] theorem callValue_showing (v : Value) (arguments : List Value) :
    (w.showing d).callValue v arguments = d.behind (w.callValue v arguments) := by
  unfold callValue
  split
  · exact callCompletion_showing arguments
  · rfl

@[simp] theorem surroundings_showing : (w.showing d).surroundings scope = w.surroundings scope := by
  have faults (v : Value) : (w.showing d).lookupFault v = w.lookupFault v := by
    simp only [lookupFault, attributeOf_showing, callAttribute_showing, behind_fst]
  simp only [surroundings, faults]

@[simp] theorem eval_showing (t : Template) : (w.showing d).eval scope t = d.behind (w.eval scope t) := by
  simp only [eval, surroundings_showing, heap_showing]
  rfl

@[simp] theorem evalList_showing (ts : List Template) :
    (w.showing d).evalList scope ts = d.behind (w.evalList scope ts) := by
  simp only [evalList, surroundings_showing, heap_showing]
  rfl

@[simp] theorem sharedFault_showing (slot name : String) (message : Option String) :
    (w.showing d).sharedFault slot name message = d.behind (w.sharedFault slot name message) := by
  have kept : (w.showing d).shared = w.shared := rfl
  unfold sharedFault
  rw [kept]
  cases w.shared.lookup slot with
  | some e => rfl
  | none => cases Fault.ofRaise name message <;> rfl

@[simp] theorem returnFuture_showing (ticks : Option Nat) (how : FutureEnd) :
    (w.showing d).returnFuture ticks how = d.behind (w.returnFuture ticks how) := by
  simp only [returnFuture, newFuture_showing, behind_fst, behind_snd, schedule_showing, reachTime_showing,
    failNow_showing]
  cases ticks with
  | some n => rfl
  | none => cases (w.newFuture (.plain .timed)).2.reachTime (w.newFuture (.plain .timed)).1 how <;> rfl

/-- Whether what follows is the same whatever is shown. -/
def Shy {α : Type} (d : Display) (next : World → α → Halt × World) : Prop :=
  ∀ w x, next (w.showing d) x = d.behind (next w x)

theorem withValues_showing {next : World → List Value → Halt × World} (shy : Shy d next) (ts : List Template) :
    (w.showing d).withValues scope ts next = d.behind (w.withValues scope ts next) := by
  simp only [withValues, evalList_showing]
  obtain ⟨_ | vs, u⟩ := w.evalList scope ts
  · rfl
  · exact shy u vs

theorem withValue_showing {next : World → Value → Halt × World} (shy : Shy d next) (t : Template) :
    (w.showing d).withValue scope t next = d.behind (w.withValue scope t next) := by
  simp only [withValue, eval_showing]
  obtain ⟨_ | v, u⟩ := w.eval scope t
  · rfl
  · exact shy u v

theorem withFound_showing {next : World → Value → Halt × World} (shy : Shy d next) (container : Value)
    (a : Attribute) (k : Value) :
    (w.showing d).withFound container a k next = d.behind (w.withFound container a k next) := by
  simp only [withFound, heap_showing, callAttribute_showing]
  cases w.heap.mapping? container with
  | some entries =>
    dsimp only
    cases Template.lookUp entries k .null with
    | error _ => rfl
    | ok v => exact shy w v
  | none =>
    obtain ⟨_ | _, u⟩ := w.callAttribute a [k]
    · rfl
    · exact shy u _

@[simp] theorem caught_behind (r : Halt × World) : caught (d.behind r) = d.behind (caught r) := by
  obtain ⟨h, w⟩ := r
  cases h with
  | failed e =>
    simp only [caught, behind_mk]
    split <;> rfl
  | _ => rfl

mutual

theorem runStep_showing (scope : Scope) : (s : Step) → (w : World) →
    runStep scope s (w.showing d) = d.behind (runStep scope s w)
  | .log text => fun w => by
    simp only [runStep]
    exact withValue_showing (fun _ _ => rfl) text
  | .see => fun _ => rfl
  | .get key => fun w => by
    simp only [runStep]
    refine withValue_showing (fun w k => ?_) key
    simp only [withResult, heap_showing]
    cases w.heap.item scope.args k <;> rfl
  | .commit type key => fun w => by
    simp only [runStep, attributeOf_showing]
    cases w.attributeOf scope.store "commit" with
    | error _ => rfl
    | ok a =>
      refine withValue_showing (fun w t => withValue_showing (fun w k => ?_) key) type
      simp only [withResult, heap_showing, callAttribute_showing]
      cases w.heap.item scope.args k with
      | error _ => rfl
      | ok v => exact finishWith_behind _
  | .set key value => fun w => by
    simp only [runStep]
    exact withValue_showing (fun w v => withValue_showing (fun w k => finishHeap_showing _) key) value
  | .delete key => fun w => by
    simp only [runStep]
    exact withValue_showing (fun w k => finishHeap_showing _) key
  | .append key value => fun w => by
    simp only [runStep]
    refine withValue_showing (fun w k => ?_) key
    simp only [withResult, heap_showing]
    cases w.heap.item scope.args k with
    | error _ => rfl
    | ok target =>
      simp only [attributeOf_showing]
      cases w.attributeOf target "append" with
      | error _ => rfl
      | ok a =>
        refine withValue_showing (fun w v => ?_) value
        simp only [callAttribute_showing, finishWith_behind]
  | .call arguments => fun w => by
    simp only [runStep]
    refine withValues_showing (fun w vs => ?_) arguments
    simp only [callValue_showing, finishWith_behind]
  | .attribute name arguments => fun w => by
    simp only [runStep, attributeOf_showing]
    cases w.attributeOf scope.completion name with
    | error _ => rfl
    | ok a =>
      refine withValues_showing (fun w vs => ?_) arguments
      simp only [callAttribute_showing, finishWith_behind]
  | .stash _ => fun _ => rfl
  | .use slot arguments => fun w => by
    simp only [runStep]
    change (match w.stashed.lookup slot with | none => _ | some v => _) = d.behind _
    cases w.stashed.lookup slot with
    | none => rfl
    | some v =>
      refine withValues_showing (fun w vs => ?_) arguments
      simp only [callValue_showing, finishWith_behind]
  | .raise _ _ => fun _ => rfl
  | .raiseShared slot name message => fun w => by
    simp only [runStep, sharedFault_showing, behind_fst, behind_snd, behind_mk]
  | .later _ _ => fun _ => rfl
  | .soon steps => fun w => by
    simp only [runStep, agenda_showing, post_showing, behind_mk]
  | .attempt steps => fun w => by
    simp only [runStep, runSteps_showing scope steps w, caught_behind, behind_fst, behind_snd, behind_mk]
  | .choose key value yes no => fun w => by
    simp only [runStep, attributeOf_showing]
    cases w.attributeOf scope.args "get" with
    | error _ => rfl
    | ok a =>
      refine withValue_showing (fun w k => withFound_showing (fun w found => ?_) _ _ _) key
      refine withValue_showing (fun w v => ?_) value
      change (if (w.heap.read found).equals (w.heap.read v) then _ else _) = d.behind _
      split
      · exact runSteps_showing scope yes w
      · exact runSteps_showing scope no w
  | .sleep _ => fun _ => rfl
  | .run args => fun w => by
    simp only [runStep]
    exact withValue_showing (fun _ _ => rfl) args
  | .finish result => fun w => by
    simp only [runStep]
    exact withValue_showing (fun _ _ => rfl) result
  | .finishRoutine _ => fun _ => rfl
  | .finishFuture ticks how => fun w => by
    simp only [runStep]
    exact returnFuture_showing ticks how

theorem runSteps_showing (scope : Scope) : (steps : List Step) → (w : World) →
    runSteps scope steps (w.showing d) = d.behind (runSteps scope steps w)
  | [] => fun _ => rfl
  | s :: rest => fun w => by
    simp only [runSteps, runStep_showing scope s w]
    obtain ⟨h, u⟩ := runStep scope s w
    cases h with
    | finished => exact runSteps_showing scope rest u
    | _ => rfl

end

theorem runFrom_showing (rest : List Step) (attempts : List (List Step)) :
    runFrom scope rest attempts (w.showing d) = d.behind (runFrom scope rest attempts w) := by
  induction attempts generalizing w with
  | nil => exact runSteps_showing scope rest w
  | cons steps outer ih =>
    simp only [runFrom, runSteps_showing, caught_behind]
    obtain ⟨h, u⟩ := caught (runSteps scope steps w)
    cases h with
    | finished => exact ih
    | _ => rfl

@[simp] theorem runRemainder_showing (r : Remainder) :
    runRemainder scope r (w.showing d) = d.behind (runRemainder scope r w) :=
  runFrom_showing r.steps r.attempts

theorem constructed_showing (type : String) (r : Except Raised Returned) :
    (w.showing d).constructed type r = d.behind (w.constructed type r) := by
  unfold constructed
  split <;> rfl

@[simp] theorem invoke_showing (a : Action) (arguments : List Value) :
    (w.showing d).invoke a arguments = d.behind (w.invoke a arguments) := by
  unfold invoke
  cases a.prepare arguments [] with
  | error _ => rfl
  | ok target =>
    obtain ⟨f, scope⟩ := target
    have made (r r' : Except Raised Returned × World) (same : r' = d.behind r) :
        (if f.packaging = .constructor then r'.2.constructed f.label r'.1 else r')
          = d.behind (if f.packaging = .constructor then r.2.constructed f.label r.1 else r) := by
      subst same
      split
      · exact constructed_showing _ _
      · rfl
    refine made _ _ ?_
    rw [runSteps_showing]
    split
    · rfl
    · split
      · rfl
      · obtain ⟨h, u⟩ := runSteps scope f.steps w
        cases h <;> rfl

/-! ### Runs -/

variable {plan : Plan} {run : RunId} {node : Node} {call : Call} {t : FutureId} {stack : List Frame} {e : Raised}

@[simp] theorem record?_showing : (w.showing d).record? run = w.record? run := rfl

@[simp] theorem isSettled_showing : (w.showing d).isSettled run = w.isSettled run := rfl

@[simp] theorem argsOf_showing : (w.showing d).argsOf run = w.argsOf run := rfl

@[simp] theorem elapsed_showing (started : Nat) : (w.showing d).elapsed started = w.elapsed started := rfl

@[simp] theorem note_showing (h : Happening) : (w.showing d).note run h = (w.note run h).showing d := rfl

@[simp] theorem setStatus_showing (s : Status) : (w.showing d).setStatus run s = (w.setStatus run s).showing d := rfl

@[simp] theorem resolve_showing : (w.showing d).resolve run = d.behind (w.resolve run) := by
  simp only [resolve, record?_showing, elapsed_showing, setStatus_showing, log_showing, isPending_showing,
    settle_showing]
  cases w.record? run with
  | none => rfl
  | some r =>
    dsimp only
    split
    · rfl
    · split <;> rfl

/-- Failing the outcome of a run adds the line of the log to what is shown. -/
theorem refused_showing (outcome : FutureId) : (match (w.showing d).failFuture outcome e with
      | .ok w => (.ok true, w)
      | .error f => (.error ((w.showing d).raise f).1, ((w.showing d).raise f).2)
      : Except Raised Bool × World)
    = d.behind (match w.failFuture outcome e with
      | .ok w => (.ok true, w)
      | .error f => (.error (w.raise f).1, (w.raise f).2)) := by
  rw [failFuture_showing]
  cases w.failFuture outcome e <;> rfl

@[simp] theorem reject_showing : (w.showing d).reject plan run e = d.behind (w.reject plan run e) := by
  simp only [reject, record?_showing, elapsed_showing, setStatus_showing, log_showing]
  cases w.record? run with
  | none => rfl
  | some r =>
    cases status : r.status with
    | running =>
      simp only [status]
      cases plan.settings.logFailures <;> exact refused_showing r.outcome
    | resolved _ => simp only [status, behind_mk]
    | rejected _ _ => simp only [status, behind_mk]

@[simp] theorem leaving_showing : (w.showing d).leaving e = d.behind (w.leaving e) := by
  unfold leaving
  split <;> rfl

@[simp] theorem handleFailure_showing :
    (w.showing d).handleFailure plan run node e = d.behind (w.handleFailure plan run node e) := by
  simp only [handleFailure, reject_showing]
  split
  · rfl
  · obtain ⟨_ | rejected, u⟩ := w.reject plan run e
    · rfl
    · cases rejected with
      | true => exact leaving_showing
      | false => exact congrArg (Prod.mk _) (log_showing _)

@[simp] theorem failDispatch_showing :
    (w.showing d).failDispatch plan run e = d.behind (w.failDispatch plan run e) := by
  simp only [failDispatch, reject_showing]
  split
  · rfl
  · obtain ⟨_ | rejected, u⟩ := w.reject plan run e
    · rfl
    · exact leaving_showing

@[simp] theorem callAction_showing (completion : Value) (explicit : Bool) :
    (w.showing d).callAction plan run node completion explicit
      = d.behind (w.callAction plan run node completion explicit) := by
  simp only [callAction, argsOf_showing, heap_showing, note_showing, invoke_showing]

@[simp] theorem selected_showing (r : Result) : (w.showing d).selected node r = w.selected node r := rfl

@[simp] theorem delegate_showing (name : String) : (w.showing d).delegate c name = w.delegate c name := rfl

@[simp] theorem isDone_showing : (w.showing d).isDone c = w.isDone c := rfl

@[simp] theorem waitedFor_showing : (w.showing d).waitedFor c = w.waitedFor c := rfl

@[simp] theorem resultOf_showing (part : String) (x : Reported) : (w.showing d).resultOf part x = w.resultOf part x :=
  rfl

@[simp] theorem collectReport_showing : (w.showing d).collectReport c = d.behind (w.collectReport c) := by
  simp only [collectReport, delegate_showing, collect_showing]
  cases w.delegate c "_collect" <;> rfl

@[simp] theorem startRun_showing (args : Entries) : (w.showing d).startRun args = d.behind (w.startRun args) := by
  have started (u : World) (r : Routine) :
      (((u.showing d).log .started).newTask r).2 = ((u.log .started).newTask r).2.showing d := by
    rw [log_showing, newTask_showing, behind_snd]
  let recorded := ({ w with heap := (w.heap.newDict args).2 }.newFuture (.plain (.outcome w.records.size))).2.addRecord
    { args := (w.heap.newDict args).1, started := w.clock, outcome := w.futures.size }
  exact congrArg (Prod.mk w.records.size) (started recorded (.drive w.records.size))

@[simp] theorem noteUnheard_showing :
    (w.showing d).noteUnheard run node c e = (w.noteUnheard run node c e).showing d := by
  simp only [noteUnheard, completion?_showing, note_showing]
  cases w.completion? c <;> rfl

@[simp] theorem failBody_showing : (w.showing d).failBody c e = (w.failBody c e).map (·.showing d) := by
  simp only [failBody, delegate_showing, failCompletion_showing]
  cases w.delegate c "_fail" <;> rfl

@[simp] theorem emitStray_showing (x : Fault) : (w.showing d).emitStray x = (w.emitStray x).showing d := rfl

@[simp] theorem bodyEnded_showing (explicit : Bool) :
    (w.showing d).bodyEnded plan run node c explicit f = (w.bodyEnded plan run node c explicit f).showing d := by
  simp only [bodyEnded, settlement?_showing, raise_showing, behind_fst, behind_snd, failBody_showing, bodyCompleted,
    delegate_showing, isDone_showing, noteUnheard_showing, note_showing, reject_showing, record_showing]
  cases w.settlement? f with
  | none => rfl
  | some s =>
    cases s with
    | value _ =>
      cases explicit with
      | true => rfl
      | false =>
        generalize w.record c (.result {}) = r
        obtain ⟨_ | _, u⟩ := r <;> rfl
    | cancelled _ =>
      dsimp only
      cases World.failBody _ c _ <;> rfl
    | failed x =>
      dsimp only
      cases w.delegate c "_is_done" with
      | error _ => rfl
      | ok _ =>
        dsimp only
        cases w.isDone c with
        | error _ => rfl
        | ok done =>
          cases done with
          | false => cases w.failBody c x <;> rfl
          | true =>
            dsimp only
            generalize World.reject plan run x _ = r
            obtain ⟨_ | rejected, u⟩ := r
            · rfl
            · cases rejected with
              | true => rfl
              | false => exact log_showing _

/-! ### Tasks -/

@[simp] theorem wakeUp_showing (mustCancel : Bool) (o : Outcome) :
    (w.showing d).wakeUp t mustCancel o = d.behind (w.wakeUp t mustCancel o) := by
  simp only [wakeUp, activate, repurpose_showing, raise_showing]
  split <;> rfl

@[simp] theorem emitCaught_showing : (w.showing d).emitCaught e = (w.emitCaught e).showing d := rfl

@[simp] theorem chainMember_showing (explicit : Bool) :
    (w.showing d).chainMember run call explicit f = d.behind (w.chainMember run call explicit f) := by
  simp only [chainMember, note_showing, onSettled_showing, newTask_showing]

@[simp] theorem chainPlain_showing (explicit : Bool) :
    (w.showing d).chainPlain run call explicit = d.behind (w.chainPlain run call explicit) := by
  cases explicit with
  | false => exact (congrArg (fun r => World.newTask r.2 _) (record_showing _)).trans (newTask_showing _)
  | true => exact newTask_showing _

end World

end Conductor
