import Conductor.Proofs.Inert

/-!
# What a step does to values and nodes

A step that does not start a run has three phases. At first the executor may mark a node and note that
it is called; then user code may run, which does with the values what it likes; in the end the executor
may merge one payload. Apart from that it leaves values, nodes and the args of all runs alone.
-/

namespace Conductor

/-- Whether something happens in which args play a part: an action is called, or a payload is merged. -/
def Happening.counts : Happening → Bool
  | .called _ _ | .completed _ _ _ => true
  | _ => false

def Routine.starts : Routine → Bool
  | .runner _ | .execute _ => true
  | _ => false

def Focus.starts : Focus → Bool
  | .enter _ r _ => r.starts
  | _ => false

namespace World

/-- The calls and completions among the notes, the latest first. -/
def course (w : World) : List Note := w.notes.filter fun x => x.2.counts

def calling (plan : Plan) (run : RunId) (node : Node) (policy : Policy) (w : World) : World × World :=
  let (c, w) := w.newCompletion (descriptor plan node policy)
  let w := w.beginNode plan run node
  let explicit := (plan.tree.actionFor node).acceptsCompletion
  (w.note run (.called node.head (w.heap.dict (w.argsOf run))),
    (w.callAction plan run node (.completion policy c) explicit).2)

/-- The states before and after the user code that a step runs. -/
def userCode (plan : Plan) (w : World) : World × World :=
  match w.focus with
  | .enter _ (.script scope rest) _ => (w, (runRemainder scope rest w).2)
  | .enter _ (.sequential run node) _ => calling plan run node .sequential w
  | .enter _ (.dispatch run _ _ (.node head outputs :: _) _) _ =>
    calling plan run ⟨head, outputs⟩ .concurrent w
  | .idle =>
    match w.nextJob? with
    | some (.callback scope steps, w) => (w, (runSteps scope steps w).2)
    | _ => (w, w)
  | _ => (w, w)

/-- Whether values, nodes and the args of runs are left alone, and no calls or completions are noted. -/
structure Aside (w w' : World) : Prop where
  heap : w'.heap = w.heap
  nodes : w'.nodes = w.nodes
  args : w'.records.map (·.args) = w.records.map (·.args)
  course : w'.course = w.course

inductive Prelude (plan : Plan) (w : World) : World → Prop where
  | aside {w' : World} (aside : Aside w w') : Prelude plan w w'
  | called {w₁ w' : World} (run : RunId) (node : Node) (aside : Aside w w₁)
      (begun : w' = w₁.beginNode plan run node) :
      Prelude plan w (w'.note run (.called node.head (w'.heap.dict (w'.argsOf run))))

inductive Sequel (plan : Plan) (w : World) : World → Prop where
  | aside {w' : World} (aside : Aside w w') : Sequel plan w w'
  | merged {w₁ w₂ w' : World} (run : RunId) (node : Node) (r : Result) (started : Nat) (first : Aside w w₁)
      (done : w₁.complete plan run node r started = .ok w₂) (rest : Aside w₂ w') : Sequel plan w w'

variable {w w' : World} {plan : Plan} {run : RunId} {node : Node} {call : Call} {t f : FutureId}
  {stack : List Frame} {e : Raised} {c : CompletionId} {j : Job} {body : Option FutureId}

/-! ### What is done aside -/

theorem argsOf_congr (args : w'.records.map (·.args) = w.records.map (·.args)) (run : RunId) :
    w'.argsOf run = w.argsOf run := by
  have same : (w'.record? run).map (·.args) = (w.record? run).map (·.args) := by
    simpa [record?] using congrArg (fun all => all[run]?) args
  unfold argsOf
  cases found : w.record? run <;> cases found' : w'.record? run <;> simp_all

theorem course_congr (journal : w'.journal = w.journal) : w'.course = w.course := by
  rw [World.course, World.course, notes_congr journal]

theorem course_note (run : RunId) {x : Happening} (other : x.counts = false) :
    (w.note run x).course = w.course := by
  simp [course, notes, note, other]

theorem course_called (run : RunId) (h : Head) (args : Entries) :
    (w.note run (.called h args)).course = (run, .called h args) :: w.course := rfl

namespace Aside

theorem refl (w : World) : Aside w w := ⟨rfl, rfl, rfl, rfl⟩

theorem trans {w₁ w₂ w₃ : World} (h : Aside w₁ w₂) (h' : Aside w₂ w₃) : Aside w₁ w₃ :=
  ⟨h'.heap.trans h.heap, h'.nodes.trans h.nodes, h'.args.trans h.args, h'.course.trans h.course⟩

theorem of_same (untouched : Untouched w w') (same : SameRuns w w') : Aside w w' :=
  ⟨untouched.heap, untouched.nodes, congrArg _ same.records, course_congr same.journal⟩

theorem enter (h : Aside w w') (r : Routine) : Aside w (w'.enter t r stack) :=
  ⟨h.heap, h.nodes, h.args, h.course⟩

theorem leave (h : Aside w w') (o : Outcome) : Aside w (w'.leave t o stack) :=
  ⟨h.heap, h.nodes, h.args, h.course⟩

theorem note (run : RunId) {x : Happening} (other : x.counts = false) : Aside w (w.note run x) :=
  ⟨rfl, rfl, rfl, course_note run other⟩

theorem raise (f : Fault) : Aside w (w.raise f).2 := ⟨rfl, rfl, rfl, rfl⟩

theorem log (x : LogEntry) : Aside w (w.log x) := ⟨rfl, rfl, rfl, rfl⟩

theorem emitStray (f : Fault) : Aside w (w.emitStray f) := ⟨rfl, rfl, rfl, rfl⟩

theorem post (loop : Nat) : Aside w (w.post loop j) := of_same (.post loop) (post_sameRuns loop)

theorem settle (f : FutureId) (s : Settlement) : Aside w (w.settle f s) := of_same (.settle f s) settle_sameRuns

theorem onSettled (f : FutureId) (j : Job) : Aside w (w.onSettled f j) := of_same (.onSettled f j) onSettled_sameRuns

theorem newFuture (p : Purpose) : Aside w (w.newFuture p).2 := ⟨rfl, rfl, rfl, rfl⟩

theorem newTask (r : Routine) : Aside w (w.newTask r).2 := (newFuture _).trans (post _)

theorem setPosition (t : FutureId) (p : Position) (waiting : Option FutureId) :
    Aside w (w.setPosition t p waiting) := by
  unfold World.setPosition
  split
  · exact ⟨rfl, rfl, rfl, rfl⟩
  · exact refl w

theorem newJoint (chains : List FutureId) : Aside w (w.newJoint chains).2 := by
  have registered (g : FutureId) (l : List FutureId) (w : World) :
      Aside w (l.foldl (fun w child => w.onSettled child (.childEnded g child)) w) := by
    induction l generalizing w with
    | nil => exact refl w
    | cons c rest ih => exact (onSettled c _).trans (ih _)
  unfold World.newJoint
  dsimp only
  split
  · exact (newFuture _).trans (settle _ _)
  · exact (newFuture _).trans (registered _ _ _)

theorem setStatus (run : RunId) (s : Status) : Aside w (w.setStatus run s) := by
  refine ⟨rfl, rfl, ?_, course_note run (w := { w with records := _ }) rfl⟩
  apply Array.ext_getElem?
  intro i
  simp only [World.setStatus, World.note, Array.getElem?_map, Array.getElem?_modify]
  split
  · rw [Option.map_map]
    rfl
  · rfl

theorem newCompletion (d : Descriptor) : Aside w (w.newCompletion d).2 := by
  obtain ⟨r, -, same⟩ | same := newCompletion_cases (d := d) <;> rw [same] <;> exact ⟨rfl, rfl, rfl, rfl⟩

theorem reject (plan : Plan) (run : RunId) (e : Raised) (w : World) : Aside w (w.reject plan run e).2 := by
  unfold World.reject
  split
  · exact refl w
  · split
    · exact refl w
    · exact refl w
    · rename_i r _ _ _
      dsimp only
      have settled := setStatus (w := w) run (.rejected (w.elapsed r.started) e)
      have logged : Aside w (if plan.settings.logFailures then
          (w.setStatus run (.rejected (w.elapsed r.started) e)).log (.rejected e.fault)
          else w.setStatus run (.rejected (w.elapsed r.started) e)) := by
        split
        · exact settled.trans (log _)
        · exact settled
      split
      · rename_i ok
        obtain ⟨-, rfl⟩ := failFuture_ok ok
        exact logged.trans (settle _ _)
      · rename_i f _
        exact logged.trans (raise f)

theorem resolve (run : RunId) : Aside w (w.resolve run).2 := by
  unfold World.resolve
  split
  · exact refl w
  · split
    · exact refl w
    · dsimp only
      split
      · exact ((setStatus _ _).trans (log _)).trans (settle _ _)
      · exact (setStatus _ _).trans (log _)

theorem leaving (e : Raised) : Aside w (w.leaving e).2 := by
  unfold World.leaving
  split
  · exact raise .stopIterationLeft
  · exact refl w

theorem handleFailure : Aside w (w.handleFailure plan run node e).2 := by
  unfold World.handleFailure
  split
  · exact refl w
  · have rejected := reject plan run e w
    split
    · rename_i same
      rw [same] at rejected
      exact rejected
    · rename_i same
      rw [same] at rejected
      exact rejected.trans (leaving e)
    · rename_i same
      rw [same] at rejected
      exact rejected.trans (log _)

theorem passFailure : Aside w (w.passFailure plan run node t stack e) := handleFailure.leave _

theorem failNode : Aside w (w.failNode plan run node t stack e) := (note run rfl).trans passFailure

theorem failDispatch : Aside w (w.failDispatch plan run e).2 := by
  unfold World.failDispatch
  split
  · exact refl w
  · have rejected := reject plan run e w
    split
    · rename_i same
      rw [same] at rejected
      exact rejected
    · rename_i same
      rw [same] at rejected
      exact rejected.trans (leaving e)

theorem deliver (s : Settlement) : Aside w (w.deliver s).2 := by
  unfold World.deliver
  split
  · exact refl w
  · exact refl w
  · exact refl w
  · exact raise .cancelled

theorem resumeTask (t : FutureId) (o : Outcome) : Aside w (w.resumeTask t o) := by
  obtain same | ⟨_, _, _, _, _, _, -, -, -, same, -⟩ := resumeTask_cases (w := w) t o <;> rw [same]
  · exact refl w
  · exact ⟨rfl, rfl, rfl, rfl⟩

theorem childEnded (g c : FutureId) : Aside w (w.childEnded g c) := by
  obtain same | ⟨children, ended, requested, _, n, -, -, result⟩ := childEnded_cases (w := w) g c
  · rw [same]
    exact refl w
  · have counted : Aside w ((w.repurpose g (.joint children (ended + 1) requested)).raisedTo n) :=
      ⟨rfl, rfl, rfl, rfl⟩
    obtain ⟨same, -⟩ | ⟨_, same, -, -⟩ := result _ rfl <;> rw [same]
    · exact ⟨rfl, rfl, rfl, rfl⟩
    · exact counted.trans (settle _ _)

theorem endTask (t : FutureId) (o : Outcome) : Aside w (w.endTask t o) := by
  obtain ⟨s, same, -, -⟩ := endTask_cases (w := w) t o
  rw [same]
  have ended := (setPosition (w := w) t .active none).trans (settle t s)
  exact ⟨ended.heap, ended.nodes, ended.args, ended.course⟩

theorem suspend (t f : FutureId) : Aside w (w.suspend t f stack) := by
  have waits := (setPosition (w := w) t (.suspended stack) (some f)).trans (onSettled f (.wake t f))
  exact ⟨waits.heap, waits.nodes, waits.args, waits.course⟩

theorem nextJob (next : w.nextJob? = some (j, w')) : Aside w w' := by
  obtain ⟨_, _, -, rfl⟩ := nextJob_cases next
  exact ⟨rfl, rfl, rfl, rfl⟩

theorem nextTurn (next : w.nextTurn? = some w') : Aside w w' := by
  obtain ⟨_, -, rfl⟩ := nextTurn_cases next
  exact ⟨rfl, rfl, rfl, rfl⟩

theorem collectReport (c : CompletionId) : Aside w (w.collectReport c).2 := by
  unfold World.collectReport
  split
  · exact refl w
  · exact of_same (.collect c) (scripted_collect c).sameRuns

theorem record (c : CompletionId) (x : Reported) : Aside w (w.record c x).2 :=
  of_same (.record c x) (scripted_record c x).sameRuns

theorem failBody (failed : w.failBody c e = .ok w') : Aside w w' := by
  unfold World.failBody at failed
  split at failed
  · cases failed
  · unfold failCompletion at failed
    split at failed
    · split at failed
      · cases failed
      · split at failed
        · obtain ⟨-, rfl⟩ := failFuture_ok failed
          exact settle _ _
        · obtain rfl := Except.ok.inj failed
          exact refl w
    · obtain rfl := Except.ok.inj failed
      exact refl w

theorem bodyEnded (plan : Plan) (run : RunId) (node : Node) (c : CompletionId) (explicit : Bool) (b : FutureId) :
    Aside w (w.bodyEnded plan run node c explicit b) := by
  have unheard {e : Raised} : Aside w (w.noteUnheard run node c e) := by
    unfold noteUnheard
    split
    · exact note run rfl
    · exact refl w
  unfold World.bodyEnded
  split
  · dsimp only
    split
    · rename_i ok
      exact (raise .bodyCancelled).trans (failBody ok)
    · exact (raise .bodyCancelled).trans (emitStray _)
  · rename_i e _
    split
    · exact unheard.trans (emitStray _)
    · have rejected := (note (w := w) run (x := .failed node.head e) rfl).trans (reject plan run e _)
      dsimp only
      generalize (w.note run (.failed node.head e)).reject plan run e = r at rejected ⊢
      obtain ⟨x, w₁⟩ := r
      cases x with
      | error refusal => exact rejected.trans (emitStray _)
      | ok same =>
        cases same with
        | true => exact rejected
        | false => exact rejected.trans (log _)
    · split
      · rename_i ok
        exact failBody ok
      · exact unheard.trans (emitStray _)
  · have recorded := record (w := w) c (.result {})
    split
    · exact refl w
    · split
      · rename_i same
        rw [same] at recorded
        exact recorded
      · rename_i same
        rw [same] at recorded
        exact recorded.trans (emitStray _)
  · exact refl w

end Aside

/-! ### Marks and merges -/

structure Marked (plan : Plan) (run : RunId) (n : Node) (w w' : World) : Prop where
  heap : w'.heap = w.heap
  args : w'.argsOf run = w.argsOf run
  course : w'.course = w.course
  nodes : w'.nodes = w.nodes.modify n.slot fun s => { s with
    executing := true
    args := if plan.settings.snapshotArgs then w.heap.dict (w.argsOf run) else [] }

theorem beginNode_marked (plan : Plan) (run : RunId) (n : Node) :
    Marked plan run n w (w.beginNode plan run n) := by
  unfold beginNode
  dsimp only
  split <;> exact ⟨rfl, rfl, rfl, rfl⟩

structure Merged (run : RunId) (n : Node) (r : Result) (w w' : World) : Prop where
  heap : w.heap.merge (w.argsOf run) r.payload = .ok w'.heap
  records : w'.records = w.records
  course : w'.course = (run, .completed n.head r ((w.heap.mapping? r.payload).getD [])) :: w.course
  nodes : ∃ ms, w'.nodes = w.nodes.modify n.slot fun s => { s with
    executing := false, executed := true, output := r.payload, outputPath := r.path, duration := ms }

theorem complete_merged {n : Node} {r : Result} {started : Nat} (done : w.complete plan run n r started = .ok w') :
    Merged run n r w w' := by
  unfold complete at done
  split at done
  · cases done
  · rename_i heap merged
    obtain rfl := Except.ok.inj done
    split <;> exact ⟨merged, rfl, rfl, _, rfl⟩

/-! ### What follows the user code -/

theorem Sequel.after {w₁ : World} (first : Aside w w₁) (rest : Sequel plan w₁ w') : Sequel plan w w' := by
  cases rest with
  | aside aside => exact .aside (first.trans aside)
  | merged run node r started again done rest => exact .merged run node r started (first.trans again) done rest

theorem finishCall_sequel {x : Reported} : Sequel plan w (w.finishCall plan run call x body t stack) := by
  unfold finishCall
  split
  · rename_i f _
    exact .aside ((Aside.raise f).trans .failNode)
  · rename_i r w₁ same
    exact .merged run call.node r call.started (.refl w) (completeReport_ok same).2 ((Aside.refl w₁).enter _)

theorem collectCall_sequel : Sequel plan w (w.collectCall plan run call t stack) := by
  have collected := Aside.collectReport (w := w) call.completion
  unfold collectCall
  split
  · rename_i f w₁ same
    rw [same] at collected
    exact .aside ((collected.trans (.raise f)).trans .failNode)
  · rename_i x w₁ same
    rw [same] at collected
    split
    · exact .aside (collected.leave _)
    · exact .after collected finishCall_sequel

/-! ### The phases of a step -/

structure Phases (plan : Plan) (w w' : World) : Prop where
  prelude : Prelude plan w (userCode plan w).1
  played : SameRuns (userCode plan w).1 (userCode plan w).2
  sequel : Sequel plan (userCode plan w).2 w'

theorem calling_prelude (policy : Policy) : Prelude plan w (calling plan run node policy w).1 :=
  .called run node (.newCompletion _) rfl

theorem calling_played (policy : Policy) :
    SameRuns (calling plan run node policy w).1 (calling plan run node policy w).2 :=
  (callAction_invoked plan run node _ _).scripted.sameRuns

theorem Phases.quiet (none : userCode plan w = (w, w)) (sequel : Sequel plan w w') : Phases plan w w' := by
  refine ⟨?_, ?_, ?_⟩ <;> rw [none]
  · exact .aside (.refl w)
  · exact .refl w
  · exact sequel

theorem enterSequential_phases (here : w.focus = .enter t (.sequential run node) stack) :
    Phases plan w (w.enterSequential plan run node t stack) := by
  have code : userCode plan w = calling plan run node .sequential w := by
    unfold userCode
    rw [here]
  refine ⟨?_, ?_, ?_⟩ <;> rw [code]
  · exact calling_prelude .sequential
  · exact calling_played .sequential
  · unfold enterSequential calling
    dsimp only
    split
    · rename_i same
      rw [same]
      exact .aside .failNode
    · rename_i same
      rw [same]
      exact collectCall_sequel
    · rename_i same
      rw [same]
      exact .aside ((Aside.note run rfl).enter _)
    · rename_i same
      rw [same]
      exact .aside ((Aside.note run rfl).enter _)

theorem chainMember_aside (explicit : Bool) (b : FutureId) :
    Aside w (w.chainMember run call explicit b).2 :=
  ((Aside.note run rfl).trans (.onSettled _ _)).trans (.newTask _)

theorem chainPlain_aside (explicit : Bool) : Aside w (w.chainPlain run call explicit).2 := by
  have recorded : Aside w (if explicit then w else (w.record call.completion (.result {})).2) := by
    split
    · exact .refl w
    · exact .record _ _
  exact recorded.trans (.newTask _)

theorem dispatchMember_aside :
    Aside (calling plan run node .concurrent w).2 (w.dispatchMember plan run node).2 := by
  unfold dispatchMember calling
  dsimp only
  split
  · rename_i same
    rw [same]
    exact .note run rfl
  · rename_i same
    rw [same]
    exact (Aside.newTask _).trans (chainMember_aside _ _)
  · rename_i same
    rw [same]
    exact chainMember_aside _ _
  · rename_i same
    rw [same]
    exact chainPlain_aside _

theorem enterDispatch_phases {place : Path} {position : Nat} {head : Head}
    {outputs : Option (List (Key × Branch))} {rest : List Entry} {chains : List FutureId}
    (here : w.focus = .enter t (.dispatch run place position (.node head outputs :: rest) chains) stack) :
    Phases plan w (w.enterRoutine plan t stack
      (.dispatch run place position (.node head outputs :: rest) chains)) := by
  have code : userCode plan w = calling plan run ⟨head, outputs⟩ .concurrent w := by
    unfold userCode
    rw [here]
  have dispatched : Aside (calling plan run ⟨head, outputs⟩ .concurrent w).2
      (w.dispatchMember plan run ⟨head, outputs⟩).2 := dispatchMember_aside
  refine ⟨?_, ?_, ?_⟩ <;> rw [code]
  · exact calling_prelude .concurrent
  · exact calling_played .concurrent
  · unfold enterRoutine
    dsimp only
    split
    · rename_i same
      rw [same] at dispatched
      exact .aside (dispatched.trans (Aside.failDispatch.leave _))
    · rename_i same
      rw [same] at dispatched
      exact .aside (dispatched.enter _)

theorem enterScript_phases {scope : Scope} {rest : Remainder} (here : w.focus = .enter t (.script scope rest) stack) :
    Phases plan w (w.enterScript scope rest t stack) := by
  have code : userCode plan w = (w, (runRemainder scope rest w).2) := by
    unfold userCode
    rw [here]
  refine ⟨?_, ?_, ?_⟩ <;> rw [code]
  · exact .aside (.refl w)
  · exact (played_runRemainder scope rest w).scripted.sameRuns
  · unfold enterScript
    split
    · rename_i same
      rw [same]
      exact .aside ((Aside.refl _).leave _)
    · rename_i same
      rw [same]
      exact .aside ((Aside.refl _).leave _)
    · rename_i same
      rw [same]
      exact .aside ((Aside.leaving _).leave _)
    · rename_i same
      rw [same]
      exact .aside ((Aside.refl _).enter _)
    · rename_i same
      rw [same]
      exact .aside ((Aside.refl _).enter _)

theorem enterRoutine_phases {r : Routine} (here : w.focus = .enter t r stack) (other : r.starts = false) :
    Phases plan w (w.enterRoutine plan t stack r) := by
  have still := Aside.refl w
  have quiet (code : userCode plan w = (w, w)) (aside : Aside w (w.enterRoutine plan t stack r)) :
      Phases plan w (w.enterRoutine plan t stack r) := .quiet code (.aside aside)
  cases r with
  | script scope rest => exact enterScript_phases here
  | runner _ => cases other
  | execute _ => cases other
  | delayed _ _ => exact quiet (by rw [userCode, here]) (still.enter _)
  | drive _ => exact quiet (by rw [userCode, here]) (still.enter _)
  | branches run place position entries =>
    refine quiet (by rw [userCode, here]) ?_
    cases entries with
    | nil => exact still.leave _
    | cons entry rest =>
      unfold enterRoutine
      dsimp only
      split
      · exact still.leave _
      · split <;> exact still.enter _
  | sequential run node => exact enterSequential_phases here
  | dispatch run place position members chains =>
    cases members with
    | nil => exact quiet (by rw [userCode, here]) ((Aside.newJoint chains).enter _)
    | cons member rest =>
      cases member with
      | node head outputs => exact enterDispatch_phases here
      | nested inner =>
        refine quiet (by rw [userCode, here]) ?_
        exact ((Aside.note run rfl).trans (.newTask _)).enter _
  | member run call body =>
    refine quiet (by rw [userCode, here]) ?_
    unfold enterRoutine
    dsimp only
    split
    · exact still.enter _
    · exact still.leave _
    · rename_i f _
      exact (Aside.raise f).trans .failNode
  | follow run node r =>
    refine quiet (by rw [userCode, here]) ?_
    unfold enterRoutine
    dsimp only
    split
    · rename_i f _
      exact ((Aside.raise f).trans (.note run rfl)).leave _
    · exact still.leave _
    · exact still.enter _
  | wait f =>
    refine quiet (by rw [userCode, here]) ?_
    unfold enterRoutine
    dsimp only
    split
    · exact (Aside.deliver _).leave _
    · exact .suspend t f
  | yield =>
    refine quiet (by rw [userCode, here]) ?_
    have posted := (Aside.setPosition (w := w) t (.suspended stack) none).trans
      (.post (j := .resume t) w.agenda.loop)
    exact ⟨posted.heap, posted.nodes, posted.args, posted.course⟩
  | sleep ticks =>
    refine quiet (by rw [userCode, here]) ?_
    cases ticks with
    | zero => exact still.enter _
    | succ ticks => exact ⟨rfl, rfl, rfl, rfl⟩

theorem resumeFrame_phases {frame : Frame} {v : Yield} (here : w.focus = .leave t (.ok v) (frame :: stack)) :
    Phases plan w (w.resumeFrame plan t stack v frame) := by
  refine .quiet (by rw [userCode, here]) ?_
  have still := Aside.refl w
  cases frame with
  | drive run =>
    have resolved := Aside.resolve (w := w) run
    unfold resumeFrame
    dsimp only
    split
    · rename_i same
      rw [same] at resolved
      exact .aside (resolved.leave _)
    · rename_i f _ same
      rw [same] at resolved
      exact .aside ((resolved.trans (.raise f)).leave _)
  | returning run call => exact .after (.note run rfl) collectCall_sequel
  | completing run call body =>
    unfold resumeFrame
    dsimp only
    split
    · exact .aside ((Aside.log _).leave _)
    · exact finishCall_sequel
  | following run call body =>
    unfold resumeFrame
    have noted := Aside.note (w := w) run (x := .followed call.node.head) rfl
    cases body with
    | none => exact .aside (noted.leave _)
    | some b => exact .aside (((noted.trans (.newFuture _)).trans (.onSettled _ _)).enter _)
  | script _ _ => exact .aside (still.enter _)
  | delayed _ => exact .aside (still.enter _)
  | branches _ _ _ _ => exact .aside (still.enter _)
  | runner _ => exact .aside (still.leave _)
  | joining _ => exact .aside (still.leave _)
  | ending _ _ _ => exact .aside (still.leave _)

theorem unwindFrame_phases {frame : Frame} (here : w.focus = .leave t (.error e) (frame :: stack)) :
    Phases plan w (w.unwindFrame plan t stack e frame) := by
  refine .quiet (by rw [userCode, here]) (.aside ?_)
  have still := Aside.refl w
  cases frame with
  | drive run =>
    have rejected := Aside.reject plan run e w
    unfold unwindFrame
    dsimp only
    split
    · exact still.leave _
    · split
      · rename_i same
        rw [same] at rejected
        exact rejected.leave _
      · rename_i same
        rw [same] at rejected
        exact rejected.leave _
  | script scope rest =>
    unfold unwindFrame unwindScript
    dsimp only
    split
    · exact still.leave _
    · split
      · exact ⟨rfl, rfl, rfl, rfl⟩
      · exact still.leave _
  | returning _ _ => exact .failNode
  | completing _ _ _ => exact .failNode
  | following _ _ _ => exact .passFailure
  | ending _ _ _ => exact .passFailure
  | _ => exact still.leave _

theorem runJob_phases {w₁ : World} (idle : w.focus = .idle) (next : w.nextJob? = some (j, w₁)) :
    Phases plan w (w₁.runJob plan j) := by
  have taken := Aside.nextJob next
  have quiet (code : userCode plan w = (w, w)) (aside : Aside w₁ (w₁.runJob plan j)) :
      Phases plan w (w₁.runJob plan j) := .quiet code (.aside (taken.trans aside))
  cases j with
  | callback scope steps =>
    have code : userCode plan w = (w₁, (runSteps scope steps w₁).2) := by rw [userCode, idle, next]
    refine ⟨?_, ?_, ?_⟩ <;> rw [code]
    · exact .aside taken
    · exact (played_runSteps scope steps w₁).scripted.sameRuns
    · unfold runJob
      dsimp only
      split
      · rename_i same
        rw [same]
        exact .aside ⟨rfl, rfl, rfl, rfl⟩
      · rename_i same
        rw [same]
        exact .aside (.refl _)
  | resume t => exact quiet (by rw [userCode, idle, next]) (.resumeTask _ _)
  | wake t f =>
    refine quiet (by rw [userCode, idle, next]) ?_
    unfold runJob
    dsimp only
    split
    · exact (Aside.deliver _).trans (.resumeTask _ _)
    · exact .refl _
  | bodyEnded run node c explicit b => exact quiet (by rw [userCode, idle, next]) (.bodyEnded _ _ _ _ _ _)
  | childEnded g c => exact quiet (by rw [userCode, idle, next]) (.childEnded _ _)
  | release g f => exact quiet (by rw [userCode, idle, next]) (.settle _ _)
  | settle f how =>
    refine quiet (by rw [userCode, idle, next]) ?_
    unfold runJob
    dsimp only
    split
    · rename_i ok
      obtain ⟨n, s, -, rfl⟩ := reachTime_ok ok
      have raised : Aside w₁ { w₁ with raisedCount := n } := ⟨rfl, rfl, rfl, rfl⟩
      exact raised.trans (.settle _ _)
    · exact ⟨rfl, rfl, rfl, rfl⟩
  | stop => exact quiet (by rw [userCode, idle, next]) ⟨rfl, rfl, rfl, rfl⟩

theorem step_phases (stepped : w.step plan = some w') (other : w.focus.starts = false) : Phases plan w w' := by
  unfold World.step at stepped
  split at stepped
  · rename_i t r stack here
    obtain rfl := Option.some.inj stepped
    exact enterRoutine_phases here (by simpa [here, Focus.starts] using other)
  · rename_i t o here
    obtain rfl := Option.some.inj stepped
    exact .quiet (by rw [userCode, here]) (.aside (.endTask _ _))
  · rename_i t v frame stack here
    obtain rfl := Option.some.inj stepped
    exact resumeFrame_phases here
  · rename_i t e frame stack here
    obtain rfl := Option.some.inj stepped
    exact unwindFrame_phases here
  · rename_i idle
    cases next : w.nextJob? with
    | none =>
      rw [next] at stepped
      exact .quiet (by rw [userCode, idle, next]) (.aside (.nextTurn stepped))
    | some taken =>
      obtain ⟨j, w₁⟩ := taken
      rw [next] at stepped
      obtain rfl := Option.some.inj stepped
      exact runJob_phases idle next

/-! ### Starting a run -/

/-- A run is made of entries: its args are a new dictionary of them. -/
inductive Begun (w : World) (entries : Entries) : World → Prop where
  | mk {w' : World} {r : Record} (heap : w'.heap = (w.heap.newDict entries).2)
      (args : r.args = (w.heap.newDict entries).1) (records : w'.records = w.records.push r)
      (nodes : w'.nodes = w.nodes) (course : w'.course = w.course) : Begun w entries w'

theorem startRun_begun (entries : Entries) : Begun w entries (w.startRun entries).2 := by
  let r : Record := { args := (w.heap.newDict entries).1, started := w.clock, outcome := w.futures.size }
  let w₁ : World := ((({ w with heap := (w.heap.newDict entries).2 }).newFuture
    (.plain (.outcome w.records.size))).2.addRecord r).log .started
  have same := newTask_sameRuns (w := w₁) (.drive w.records.size)
  have aside : Aside w₁ (w₁.newTask (.drive w.records.size)).2 := .newTask _
  exact .mk (r := r) aside.heap rfl same.records aside.nodes aside.course

theorem enterRunner_begun {args : Value} {entries : Entries} (given : w.heap.entriesOf args = .ok entries) :
    Begun w entries (w.enterRunner args t stack) := by
  unfold enterRunner
  rw [given]
  obtain ⟨heap, args, records, nodes, course⟩ := startRun_begun (w := w) entries
  exact ⟨heap, args, records, nodes, course⟩

theorem enterRunner_refused {args : Value} {f : Fault} (refused : w.heap.entriesOf args = .error f) :
    Aside w (w.enterRunner args t stack) := by
  unfold enterRunner
  rw [refused]
  exact (Aside.raise f).leave _

/-- A step that is about to start a run starts it, unless its args do not do, and may clear the nodes
before. -/
theorem step_starts (stepped : w.step plan = some w') (starts : w.focus.starts) :
    ∃ args u, (u = w ∨ u = w.resetNodes) ∧
      ((∃ f, u.heap.entriesOf args = .error f ∧ Aside u w') ∨
        ∃ entries, u.heap.entriesOf args = .ok entries ∧ Begun u entries w') := by
  have entered (u : World) (args : Value) (t : FutureId) (stack : List Frame) :
      (∃ f, u.heap.entriesOf args = .error f ∧ Aside u (u.enterRunner args t stack)) ∨
        ∃ entries, u.heap.entriesOf args = .ok entries ∧ Begun u entries (u.enterRunner args t stack) := by
    cases given : u.heap.entriesOf args with
    | error f => exact .inl ⟨f, rfl, enterRunner_refused given⟩
    | ok entries => exact .inr ⟨entries, rfl, enterRunner_begun given⟩
  unfold World.step at stepped
  split at stepped
  · rename_i t r stack here
    obtain rfl := Option.some.inj stepped
    rw [here] at starts
    cases r with
    | runner args => exact ⟨args, w.resetNodes, .inr rfl, entered _ _ _ _⟩
    | execute args => exact ⟨args, w, .inl rfl, entered _ _ _ _⟩
    | _ => cases starts
  all_goals
    rename_i here
    rw [here] at starts
    cases starts

/-! ### What is done between steps -/

theorem Aside.interrupted (i : Interrupted w w') : Aside w w' := by
  induction i with
  | refl _ => exact .refl _
  | settled _ => exact .settle _ _
  | asked _ => exact ⟨rfl, rfl, rfl, rfl⟩
  | told _ => exact ⟨rfl, rfl, rfl, rfl⟩
  | trans _ _ ih ih' => exact ih.trans ih'

/-- A move that is no step supplies values, clears the nodes, or leaves them alone. -/
theorem Move.aside (m : Move plan w w') : w.step plan = some w' ∨ (∃ heap, w' = { w with heap }) ∨
    w' = w.resetNodes ∨ Aside w w' := by
  cases m with
  | stepped stepped => exact .inl stepped
  | supplied heap => exact .inr (.inl ⟨heap, rfl⟩)
  | cleared => exact .inr (.inr (.inl rfl))
  | called r _ => exact .inr (.inr (.inr (.newTask r)))
  | observed f => exact .inr (.inr (.inr (.onSettled f _)))
  | cancelled f => exact .inr (.inr (.inr (.interrupted (cancel_interrupted f))))
  | turned => exact .inr (.inr (.inr ⟨rfl, rfl, rfl, rfl⟩))
  | opened n _ _ _ => exact .inr (.inr (.inr ⟨rfl, rfl, rfl, rfl⟩))
  | closed _ => exact .inr (.inr (.inr ⟨rfl, rfl, rfl, rfl⟩))

theorem Move.counted (m : Move plan w w') :
    w.step plan = some w' ∧ w.focus.starts = false ∨ w'.course = w.course := by
  rcases m.aside with stepped | ⟨heap, rfl⟩ | rfl | aside
  · by_cases starts : w.focus.starts
    · obtain ⟨args, u, rfl | rfl, ⟨f, -, aside⟩ | ⟨entries, -, ⟨-, -, -, -, course⟩⟩⟩ := step_starts stepped starts
      · exact .inr aside.course
      · exact .inr course
      · exact .inr aside.course
      · exact .inr course
    · exact .inl ⟨stepped, by simpa using starts⟩
  · exact .inr rfl
  · exact .inr rfl
  · exact .inr aside.course

theorem Phases.size (phases : Phases plan w w') : w'.nodes.size = w.nodes.size := by
  obtain ⟨prelude, played, sequel⟩ := phases
  have before : (userCode plan w).1.nodes.size = w.nodes.size := by
    generalize (userCode plan w).1 = w₁ at prelude
    cases prelude with
    | aside aside => rw [aside.nodes]
    | @called w₁ w₂ other n aside begun =>
      subst begun
      change (w₁.beginNode plan other n).nodes.size = w.nodes.size
      rw [(beginNode_marked plan other n).nodes, Array.size_modify, aside.nodes]
  rw [← before, ← played.nodes]
  generalize (userCode plan w).2 = w₂ at sequel
  cases sequel with
  | aside aside => rw [aside.nodes]
  | merged other n r started first done rest =>
    obtain ⟨ms, nodes⟩ := (complete_merged done).nodes
    rw [rest.nodes, nodes, Array.size_modify, first.nodes]

end World

end Conductor
