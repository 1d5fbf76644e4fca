import Conductor.Proofs.Overwriting
import Conductor.Proofs.Refinement

/-!
# What settings change

The settings of a machine say what is logged and whether nodes keep the args that they start from. None of them
is read for anything else: two machines with different settings go on side by side, and differ at most in their
logs and in the args kept on their nodes.
-/

namespace Conductor

def NodeState.bare (s : NodeState) : NodeState := { s with args := [] }

namespace World

/-- Whether two states of a machine differ at most in the log and in the args that the nodes have kept. -/
structure SameConduct (w v : World) : Prop where
  elsewhere : v = { w with nodes := v.nodes, logs := v.logs }
  nodes : v.nodes.map NodeState.bare = w.nodes.map NodeState.bare

variable {tree : Tree} {s s' : Settings} {w v : World} {run : RunId} {node : Node} {call : Call} {t f : FutureId}
  {stack : List Frame} {body : Option FutureId} {e : Raised} {c : CompletionId} {scope : Scope}

/-! ### Two states behind one -/

def unlogged (w : World) : World := { w with nodes := #[], logs := #[] }

/-- The nodes and the log of a state, in front of its journal and its task at work. -/
def front (w : World) : Display := ⟨w.nodes, w.logs, [], id⟩

theorem showing_front (w : World) : w.unlogged.showing w.front = w := by
  simp [unlogged, front, showing]

theorem sameConduct_showing (u : World) (same : v.nodes.map NodeState.bare = w.nodes.map NodeState.bare) :
    SameConduct (u.showing w.front) (u.showing v.front) := ⟨rfl, same⟩

namespace SameConduct

theorem refl (w : World) : SameConduct w w := ⟨rfl, rfl⟩

theorem unlogged (same : SameConduct w v) : w.unlogged = v.unlogged := by
  rw [same.elsewhere]
  rfl

theorem reads {α : Type} (same : SameConduct w v) (g : World → α) (blind : ∀ u, g u.unlogged = g u) :
    g w = g v :=
  (blind w).symm.trans ((congrArg g same.unlogged).trans (blind v))

theorem keeps (same : SameConduct w v) (g : World → World)
    (blind : ∀ d u, g (World.showing u d) = (g u).showing d) :
    SameConduct (g w) (g v) := by
  have apart (w : World) : g w = (g w.unlogged).showing w.front := by rw [← blind, showing_front]
  rw [apart w, apart v, ← same.unlogged]
  exact sameConduct_showing _ same.nodes

theorem gives {α : Type} (same : SameConduct w v) (g : World → α × World)
    (blind : ∀ d u, g (World.showing u d) = d.behind (g u)) :
    ∃ x w' v', g w = (x, w') ∧ g v = (x, v') ∧ SameConduct w' v' := by
  have apart (w : World) : g w = w.front.behind (g w.unlogged) := by rw [← blind, showing_front]
  exact ⟨_, _, _, apart w, (apart v).trans (congrArg v.front.behind (congrArg g same.unlogged.symm)),
    sameConduct_showing _ same.nodes⟩

theorem tries {ε : Type} (same : SameConduct w v) (g : World → Except ε World)
    (blind : ∀ d u, g (World.showing u d) = (g u).map (·.showing d)) :
    (∃ x, g w = .error x ∧ g v = .error x) ∨ ∃ w' v', g w = .ok w' ∧ g v = .ok v' ∧ SameConduct w' v' := by
  have apart (w : World) : g w = (g w.unlogged).map (·.showing w.front) := by rw [← blind, showing_front]
  rw [apart w, apart v, ← same.unlogged]
  cases g w.unlogged with
  | error x => exact .inl ⟨x, rfl, rfl⟩
  | ok u => exact .inr ⟨_, _, rfl, rfl, sameConduct_showing _ same.nodes⟩

theorem log_left (same : SameConduct w v) (x : LogEntry) : SameConduct (w.log x) v :=
  ⟨same.elsewhere, same.nodes⟩

theorem log_right (same : SameConduct w v) (x : LogEntry) : SameConduct w (v.log x) :=
  ⟨by rw [same.elsewhere]; rfl, same.nodes⟩

theorem logs (same : SameConduct w v) (b b' : Bool) (x x' : LogEntry) :
    SameConduct (if b then w.log x else w) (if b' then v.log x' else v) := by
  cases b <;> cases b'
  · exact same
  · exact same.log_right x'
  · exact same.log_left x
  · exact (same.log_left x).log_right x'

theorem focused (same : SameConduct w v) (x : Focus) : SameConduct { w with focus := x } { v with focus := x } :=
  ⟨by rw [same.elsewhere], same.nodes⟩

theorem enter (same : SameConduct w v) (r : Routine) : SameConduct (w.enter t r stack) (v.enter t r stack) :=
  same.focused _

theorem leave (same : SameConduct w v) (o : Outcome) : SameConduct (w.leave t o stack) (v.leave t o stack) :=
  same.focused _

theorem modifyNode {change change' : NodeState → NodeState} (same : SameConduct w v)
    (agree : ∀ x y : NodeState, x.bare = y.bare → (change x).bare = (change' y).bare) :
    SameConduct (w.modifyNode node change) (v.modifyNode node change') := by
  refine ⟨by rw [same.elsewhere]; rfl, ?_⟩
  apply Array.ext_getElem?
  intro i
  have here := congrArg (·[i]?) same.nodes
  simp only [World.modifyNode, Array.getElem?_map, Array.getElem?_modify] at here ⊢
  split
  · cases found : w.nodes[i]? with
    | none =>
      rw [found] at here
      rw [Option.map_eq_none_iff.mp here]
      rfl
    | some x =>
      rw [found] at here
      obtain ⟨y, found', bare⟩ := Option.map_eq_some_iff.mp here
      rw [found']
      exact congrArg some (agree x y bare.symm).symm
  · exact here

/-! ### Settling runs -/

theorem note (same : SameConduct w v) (run : RunId) (x : Happening) : SameConduct (w.note run x) (v.note run x) :=
  same.keeps (·.note run x) fun _ _ => note_showing x

theorem raise (same : SameConduct w v) (x : Fault) :
    ∃ e w' v', w.raise x = (e, w') ∧ v.raise x = (e, v') ∧ SameConduct w' v' :=
  same.gives (·.raise x) fun _ _ => raise_showing x

theorem record? (same : SameConduct w v) : w.record? run = v.record? run :=
  same.reads (·.record? run) fun _ => rfl

theorem isSettled (same : SameConduct w v) : w.isSettled run = v.isSettled run :=
  same.reads (·.isSettled run) fun _ => rfl

/-- A run is rejected in both states, though it may be logged in one of them only. -/
theorem reject (same : SameConduct w v) (tree : Tree) (s s' : Settings) (run : RunId) (e : Raised) :
    ∃ x w' v', w.reject ⟨tree, s⟩ run e = (x, w') ∧
    v.reject ⟨tree, s'⟩ run e = (x, v') ∧ SameConduct w' v' := by
  simp only [World.reject, ← same.record?]
  cases w.record? run with
  | none => exact ⟨_, _, _, rfl, rfl, same⟩
  | some r =>
    cases status : r.status with
    | resolved _ =>
      simp only [status]
      exact ⟨_, _, _, rfl, rfl, same⟩
    | rejected _ _ =>
      simp only [status]
      exact ⟨_, _, _, rfl, rfl, same⟩
    | running =>
      have elapsed : w.elapsed r.started = v.elapsed r.started :=
        same.reads (·.elapsed r.started) fun _ => rfl
      have settled := same.keeps (·.setStatus run (.rejected (w.elapsed r.started) e))
        fun _ _ => setStatus_showing _
      have logged := settled.logs s.logFailures s'.logFailures (.rejected e.fault) (.rejected e.fault)
      simp only [status, ← elapsed]
      rcases logged.tries (·.failFuture r.outcome e) fun _ _ => failFuture_showing e with
        ⟨x, here, there⟩ | ⟨w', v', here, there, same'⟩
      · rw [here, there]
        obtain ⟨refusal, w', v', here', there', same'⟩ := logged.raise x
        dsimp only
        rw [here', there']
        exact ⟨_, _, _, rfl, rfl, same'⟩
      · rw [here, there]
        exact ⟨_, _, _, rfl, rfl, same'⟩

theorem leaving (same : SameConduct w v) :
    ∃ x w' v', w.leaving e = (x, w') ∧ v.leaving e = (x, v') ∧ SameConduct w' v' :=
  same.gives (·.leaving e) fun _ _ => leaving_showing

theorem handleFailure (same : SameConduct w v) (tree : Tree) (s s' : Settings) (run : RunId) (node : Node)
    (e : Raised) : ∃ x w' v', w.handleFailure ⟨tree, s⟩ run node e = (x, w') ∧
      v.handleFailure ⟨tree, s'⟩ run node e = (x, v') ∧ SameConduct w' v' := by
  simp only [World.handleFailure]
  split
  · exact ⟨_, _, _, rfl, rfl, same⟩
  · obtain ⟨x, w', v', here, there, same'⟩ := same.reject tree s s' run e
    rw [here, there]
    cases x with
    | error refusal => exact ⟨_, _, _, rfl, rfl, same'⟩
    | ok rejected =>
      cases rejected with
      | true => exact same'.leaving
      | false => exact ⟨_, _, _, rfl, rfl, (same'.log_left _).log_right _⟩

theorem failDispatch (same : SameConduct w v) (tree : Tree) (s s' : Settings) (run : RunId) (e : Raised) :
    ∃ x w' v', w.failDispatch ⟨tree, s⟩ run e = (x, w') ∧ v.failDispatch ⟨tree, s'⟩ run e = (x, v') ∧
      SameConduct w' v' := by
  simp only [World.failDispatch]
  split
  · exact ⟨_, _, _, rfl, rfl, same⟩
  · obtain ⟨x, w', v', here, there, same'⟩ := same.reject tree s s' run e
    rw [here, there]
    cases x with
    | error refusal => exact ⟨_, _, _, rfl, rfl, same'⟩
    | ok rejected => exact same'.leaving

theorem passFailure (same : SameConduct w v) (e : Raised) :
    SameConduct (w.passFailure ⟨tree, s⟩ run node t stack e) (v.passFailure ⟨tree, s'⟩ run node t stack e) := by
  obtain ⟨x, w', v', here, there, same'⟩ := same.handleFailure tree s s' run node e
  rw [World.passFailure, World.passFailure, here, there]
  exact same'.leave x

theorem failNode (same : SameConduct w v) (e : Raised) :
    SameConduct (w.failNode ⟨tree, s⟩ run node t stack e) (v.failNode ⟨tree, s'⟩ run node t stack e) :=
  (same.note run (.failed node.head e)).passFailure e

/-! ### Nodes -/

/-- A node begins in both states, though it may keep its args in one of them only. -/
theorem beginNode (same : SameConduct w v) (tree : Tree) (s s' : Settings) (run : RunId) (node : Node) :
    SameConduct (w.beginNode ⟨tree, s⟩ run node) (v.beginNode ⟨tree, s'⟩ run node) := by
  refine SameConduct.logs ?_ s.traceNodes s'.traceNodes _ _
  refine same.modifyNode fun x y bare => ?_
  have kept := congrArg (fun z : NodeState => { z with executing := true }) bare
  exact kept

theorem complete (same : SameConduct w v) (tree : Tree) (s s' : Settings) (run : RunId) (node : Node) (r : Result)
    (started : Nat) :
    (∃ x, w.complete ⟨tree, s⟩ run node r started = .error x ∧
      v.complete ⟨tree, s'⟩ run node r started = .error x) ∨
    ∃ w' v', w.complete ⟨tree, s⟩ run node r started = .ok w' ∧
      v.complete ⟨tree, s'⟩ run node r started = .ok v' ∧ SameConduct w' v' := by
  have heap : w.heap = v.heap := same.reads (·.heap) fun _ => rfl
  have args : w.argsOf run = v.argsOf run := same.reads (·.argsOf run) fun _ => rfl
  simp only [World.complete, ← heap, ← args]
  cases w.heap.merge (w.argsOf run) r.payload with
  | error x => exact .inl ⟨x, rfl, rfl⟩
  | ok merged =>
    refine .inr ⟨_, _, rfl, rfl, SameConduct.logs ?_ s.traceNodes s'.traceNodes _ _⟩
    have noted := same.note run (.completed node.head r ((w.heap.mapping? r.payload).getD []))
    have there := noted.keeps (fun u => { u with heap := merged }) fun _ _ => rfl
    have elapsed : w.elapsed started = v.elapsed started := same.reads (·.elapsed started) fun _ => rfl
    refine there.modifyNode fun x y bare => ?_
    have kept := congrArg (fun z : NodeState => { z with
      executing := false, executed := true, output := r.payload, outputPath := r.path
      duration := w.elapsed started }) bare
    refine kept.trans ?_
    rw [elapsed]
    rfl

theorem finishCall (same : SameConduct w v) (x : Conductor.Reported) (body : Option FutureId) :
    SameConduct (w.finishCall ⟨tree, s⟩ run call x body t stack)
      (v.finishCall ⟨tree, s'⟩ run call x body t stack) := by
  have result : w.resultOf "payload" x = v.resultOf "payload" x := same.reads (·.resultOf "payload" x) fun _ => rfl
  have fails (x : Fault) {w v : World} (same : SameConduct w v) :
      SameConduct ((w.raise x).2.failNode ⟨tree, s⟩ run call.node t stack (w.raise x).1)
        ((v.raise x).2.failNode ⟨tree, s'⟩ run call.node t stack (v.raise x).1) := by
    obtain ⟨e, w', v', here, there, same'⟩ := same.raise x
    rw [here, there]
    exact same'.failNode e
  simp only [World.finishCall, completeReport, ← result]
  cases w.resultOf "payload" x with
  | error x => exact fails x same
  | ok r =>
    simp only [bind, Except.bind, pure, Except.pure]
    rcases same.complete tree s s' run call.node r call.started with
      ⟨x, here, there⟩ | ⟨w', v', here, there, same'⟩
    · rw [here, there]
      exact fails x same
    · rw [here, there]
      exact same'.enter _

theorem collectCall (same : SameConduct w v) : SameConduct (w.collectCall ⟨tree, s⟩ run call t stack)
    (v.collectCall ⟨tree, s'⟩ run call t stack) := by
  obtain ⟨x, w', v', here, there, same'⟩ :=
    same.gives (·.collectReport call.completion) fun _ _ => collectReport_showing
  rw [World.collectCall, World.collectCall, here, there]
  cases x with
  | error x =>
    obtain ⟨e, w', v', here, there, same⟩ := same'.raise x
    dsimp only
    rw [here, there]
    exact same.failNode e
  | ok x =>
    dsimp only
    rw [← same'.isSettled]
    split
    · exact same'.leave _
    · exact same'.finishCall x none

theorem callAction (same : SameConduct w v) (tree : Tree) (s s' : Settings) (run : RunId) (node : Node)
    (completion : Value) (explicit : Bool) :
    ∃ x w' v', w.callAction ⟨tree, s⟩ run node completion explicit = (x, w') ∧
      v.callAction ⟨tree, s'⟩ run node completion explicit = (x, v') ∧ SameConduct w' v' :=
  same.gives (World.callAction ⟨tree, s⟩ run node completion explicit)
    fun _ _ => callAction_showing completion explicit

theorem enterSequential (same : SameConduct w v) : SameConduct (w.enterSequential ⟨tree, s⟩ run node t stack)
    (v.enterSequential ⟨tree, s'⟩ run node t stack) := by
  obtain ⟨c, w₁, v₁, made, made', same₁⟩ := same.gives
    (·.newCompletion (descriptor ⟨tree, s⟩ node .sequential)) fun _ _ => newCompletion_showing _
  have clock : w₁.clock = v₁.clock := same₁.reads (·.clock) fun _ => rfl
  have made' : v.newCompletion (descriptor ⟨tree, s'⟩ node .sequential) = (c, v₁) := made'
  obtain ⟨x, w₂, v₂, called, called', same₂⟩ :=
    (same₁.beginNode tree s s' run node).callAction tree s s' run node (.completion .sequential c)
      (Plan.tree ⟨tree, s⟩ |>.actionFor node).acceptsCompletion
  simp only [World.enterSequential, made, made']
  rw [called, called', ← clock]
  cases x with
  | error e => exact same₂.failNode e
  | ok returned =>
    cases returned with
    | plain _ => exact same₂.collectCall
    | routine scope steps => exact (same₂.note run _).enter _
    | future f => exact (same₂.note run _).enter _

theorem dispatchMember (same : SameConduct w v) (tree : Tree) (s s' : Settings) (run : RunId) (node : Node) :
    ∃ x w' v', w.dispatchMember ⟨tree, s⟩ run node = (x, w') ∧
      v.dispatchMember ⟨tree, s'⟩ run node = (x, v') ∧ SameConduct w' v' := by
  obtain ⟨c, w₁, v₁, made, made', same₁⟩ := same.gives
    (·.newCompletion (descriptor ⟨tree, s⟩ node .concurrent)) fun _ _ => newCompletion_showing _
  have clock : w₁.clock = v₁.clock := same₁.reads (·.clock) fun _ => rfl
  have made' : v.newCompletion (descriptor ⟨tree, s'⟩ node .concurrent) = (c, v₁) := made'
  obtain ⟨x, w₂, v₂, called, called', same₂⟩ :=
    (same₁.beginNode tree s s' run node).callAction tree s s' run node (.completion .concurrent c)
      (Plan.tree ⟨tree, s⟩ |>.actionFor node).acceptsCompletion
  let call : Call := ⟨node, c, w₁.clock⟩
  let explicit := (tree.actionFor node).acceptsCompletion
  have chains {w v : World} (same : SameConduct w v) (b : FutureId) :=
    same.gives (World.chainMember run call explicit b) fun _ _ => chainMember_showing explicit
  simp only [World.dispatchMember, made, made']
  rw [called, called', ← clock]
  cases x with
  | error e => exact ⟨_, _, _, rfl, rfl, same₂.note run _⟩
  | ok returned =>
    cases returned with
    | plain _ =>
      obtain ⟨chain, w₃, v₃, chained, chained', same₃⟩ := same₂.gives (World.chainPlain run call explicit)
        fun _ _ => chainPlain_showing explicit
      dsimp only
      rw [chained, chained']
      exact ⟨_, _, _, rfl, rfl, same₃⟩
    | routine scope steps =>
      obtain ⟨b, w₃, v₃, begun, begun', same₃⟩ := same₂.gives (·.newTask (.script scope ⟨[], steps⟩))
        fun _ _ => newTask_showing _
      obtain ⟨chain, w₄, v₄, chained, chained', same₄⟩ := chains same₃ b
      dsimp only
      rw [begun, begun', chained, chained']
      exact ⟨_, _, _, rfl, rfl, same₄⟩
    | future f =>
      obtain ⟨chain, w₃, v₃, chained, chained', same₃⟩ := chains same₂ f
      dsimp only
      rw [chained, chained']
      exact ⟨_, _, _, rfl, rfl, same₃⟩

/-! ### Steps -/

theorem deliver (same : SameConduct w v) (how : Settlement) :
    ∃ x w' v', w.deliver how = (x, w') ∧ v.deliver how = (x, v') ∧ SameConduct w' v' :=
  same.gives (·.deliver how) fun _ _ => deliver_showing how

theorem suspend (same : SameConduct w v) : SameConduct (w.suspend t f stack) (v.suspend t f stack) := by
  have stood := same.keeps (·.setPosition t (.suspended stack) (some f)) fun _ _ => setPosition_showing ..
  have waits := stood.keeps (·.onSettled f (.wake t f)) fun _ _ => onSettled_showing _
  exact waits.focused .idle

theorem enterScript (same : SameConduct w v) (rest : Remainder) :
    SameConduct (w.enterScript scope rest t stack) (v.enterScript scope rest t stack) := by
  obtain ⟨x, w', v', here, there, same'⟩ := same.gives (runRemainder scope rest) fun _ _ => runRemainder_showing rest
  rw [World.enterScript, World.enterScript, here, there]
  cases x with
  | failed e =>
    obtain ⟨o, w', v', here, there, same⟩ := same'.leaving (e := e)
    dsimp only
    rw [here, there]
    exact same.leave o
  | paused what own => cases what <;> exact same'.enter _
  | finished => exact same'.leave _
  | returned _ => exact same'.leave _

theorem enterRunner (same : SameConduct w v) (args : Value) :
    SameConduct (w.enterRunner args t stack) (v.enterRunner args t stack) := by
  have heap : w.heap = v.heap := same.reads (·.heap) fun _ => rfl
  simp only [World.enterRunner, ← heap]
  cases w.heap.entriesOf args with
  | error x =>
    obtain ⟨e, w', v', here, there, same'⟩ := same.raise x
    dsimp only
    rw [here, there]
    exact same'.leave _
  | ok entries =>
    obtain ⟨run, w', v', here, there, same'⟩ := same.gives (·.startRun entries) fun _ _ => startRun_showing entries
    have outcome : w'.outcomeOf run = v'.outcomeOf run := same'.reads (·.outcomeOf run) fun _ => rfl
    dsimp only
    rw [here, there, ← outcome]
    exact same'.enter _

theorem resetNodes (same : SameConduct w v) : SameConduct w.resetNodes v.resetNodes := by
  have size : v.nodes.size = w.nodes.size := by simpa using congrArg Array.size same.nodes
  refine ⟨by rw [same.elsewhere]; rfl, ?_⟩
  simp only [World.resetNodes, Array.map_map]
  exact Array.ext (by simp [size]) fun i _ _ => by simp

theorem enterRoutine (same : SameConduct w v) (r : Routine) :
    SameConduct (w.enterRoutine ⟨tree, s⟩ t stack r) (v.enterRoutine ⟨tree, s'⟩ t stack r) := by
  cases r with
  | script scope rest => exact same.enterScript rest
  | runner args => exact same.resetNodes.enterRunner args
  | execute args => exact same.enterRunner args
  | delayed ticks args => exact same.enter _
  | drive run => exact same.enter _
  | branches run place position entries =>
    cases entries with
    | nil => exact same.leave _
    | cons entry rest =>
      simp only [World.enterRoutine, ← same.isSettled]
      split
      · exact same.leave _
      · cases entry <;> exact same.enter _
  | sequential run node => exact same.enterSequential
  | dispatch run place position members chains =>
    cases members with
    | nil =>
      obtain ⟨joint, w', v', here, there, same'⟩ :=
        same.gives (·.newJoint chains) fun _ _ => newJoint_showing chains
      simp only [World.enterRoutine]
      rw [here, there]
      exact same'.enter _
    | cons entry rest =>
      cases entry with
      | node head outputs =>
        obtain ⟨x, w', v', here, there, same'⟩ := same.dispatchMember tree s s' run ⟨head, outputs⟩
        simp only [World.enterRoutine]
        rw [here, there]
        cases x with
        | error e =>
          obtain ⟨o, w', v', here, there, same⟩ := same'.failDispatch tree s s' run e
          dsimp only
          rw [here, there]
          exact same.leave o
        | ok chain => exact same'.enter _
      | nested entries =>
        obtain ⟨chain, w', v', here, there, same'⟩ := (same.note run (.spawned (place ++ [.entry position]))).gives
          (·.newTask (.branches run (place ++ [.entry position]) 0 entries)) fun _ _ => newTask_showing _
        simp only [World.enterRoutine]
        rw [here, there]
        exact same'.enter _
  | member run call body =>
    have waited : w.waitedFor call.completion = v.waitedFor call.completion :=
      same.reads (·.waitedFor call.completion) fun _ => rfl
    simp only [World.enterRoutine, ← waited]
    cases w.waitedFor call.completion with
    | error x =>
      obtain ⟨e, w', v', here, there, same'⟩ := same.raise x
      dsimp only
      rw [here, there]
      exact same'.failNode e
    | ok f =>
      cases f with
      | none => exact same.leave _
      | some f => exact same.enter _
  | follow run node r =>
    have selected : w.selected node r = v.selected node r := same.reads (·.selected node r) fun _ => rfl
    simp only [World.enterRoutine, ← selected]
    cases w.selected node r with
    | error x =>
      obtain ⟨e, w', v', here, there, same'⟩ := same.raise x
      dsimp only
      rw [here, there]
      exact (same'.note run _).leave _
    | ok branch =>
      cases branch with
      | none => exact same.leave _
      | some _ => exact same.enter _
  | wait f =>
    have settled : w.settlement? f = v.settlement? f := same.reads (·.settlement? f) fun _ => rfl
    simp only [World.enterRoutine, ← settled]
    cases w.settlement? f with
    | none => exact same.suspend
    | some how =>
      obtain ⟨o, w', v', here, there, same'⟩ := same.deliver how
      dsimp only
      rw [here, there]
      exact same'.leave o
  | yield =>
    have stood := same.keeps (·.setPosition t (.suspended stack) none) fun _ _ => setPosition_showing ..
    have loop : w.agenda.loop = v.agenda.loop := same.reads (·.agenda.loop) fun _ => rfl
    have posted := stood.keeps (·.post w.agenda.loop (.resume t)) fun _ _ => post_showing _ _
    simp only [World.enterRoutine, ← loop]
    exact posted.focused .idle
  | sleep ticks =>
    cases ticks with
    | zero => exact same.enter _
    | succ ticks =>
      obtain ⟨g, w', v', here, there, same'⟩ :=
        same.gives (·.newFuture (.plain .timed)) fun _ _ => newFuture_showing _
      have planned := same'.keeps (·.schedule (ticks + 1) (.settle g .ok)) fun _ _ => schedule_showing ..
      simp only [World.enterRoutine]
      rw [here, there]
      exact planned.enter _

theorem resumeFrame (same : SameConduct w v) (y : Yield) (frame : Frame) :
    SameConduct (w.resumeFrame ⟨tree, s⟩ t stack y frame) (v.resumeFrame ⟨tree, s'⟩ t stack y frame) := by
  cases frame with
  | script scope rest => exact same.enter _
  | runner run => exact same.leave _
  | delayed args => exact same.enter _
  | drive run =>
    obtain ⟨x, w', v', here, there, same'⟩ := same.gives (·.resolve run) fun _ _ => resolve_showing
    simp only [World.resumeFrame]
    rw [here, there]
    cases x with
    | ok _ => exact same'.leave _
    | error x =>
      obtain ⟨e, w', v', here, there, same⟩ := same'.raise x
      dsimp only
      rw [here, there]
      exact same.leave _
  | branches run place position rest => exact same.enter _
  | returning run call => exact (same.note run _).collectCall
  | joining run => exact same.leave _
  | completing run call body =>
    simp only [World.resumeFrame, ← same.isSettled]
    split
    · exact ((same.log_left _).log_right _).leave _
    · exact same.finishCall _ body
  | following run call body =>
    have noted := same.note run (.followed call.node.head)
    cases body with
    | none => exact noted.leave _
    | some b =>
      obtain ⟨g, w', v', here, there, same'⟩ := noted.gives (·.newFuture (.plain (.waiter b)))
        fun _ _ => newFuture_showing _
      have waits := same'.keeps (·.onSettled b (.release g b)) fun _ _ => onSettled_showing _
      simp only [World.resumeFrame]
      rw [here, there]
      exact waits.enter _
  | ending run call body => exact same.leave _

theorem unwindScript (same : SameConduct w v) (rest : Remainder) (e : Raised) :
    SameConduct (w.unwindScript scope rest t stack e) (v.unwindScript scope rest t stack e) := by
  simp only [World.unwindScript]
  split
  · exact same.leave _
  · split
    · exact (same.keeps (·.emitCaught e) fun _ _ => rfl).enter _
    · exact same.leave _

theorem unwindFrame (same : SameConduct w v) (e : Raised) (frame : Frame) :
    SameConduct (w.unwindFrame ⟨tree, s⟩ t stack e frame) (v.unwindFrame ⟨tree, s'⟩ t stack e frame) := by
  cases frame with
  | script scope rest => exact same.unwindScript rest e
  | drive run =>
    simp only [World.unwindFrame]
    split
    · exact same.leave _
    · obtain ⟨x, w', v', here, there, same'⟩ := same.reject tree s s' run e
      rw [here, there]
      cases x <;> exact same'.leave _
  | returning run call => exact same.failNode e
  | completing run call body => exact same.failNode e
  | following run call body => exact same.passFailure e
  | ending run call body => exact same.passFailure e
  | runner run => exact same.leave _
  | delayed args => exact same.leave _
  | branches run place position rest => exact same.leave _
  | joining run => exact same.leave _

theorem endTask (same : SameConduct w v) (o : Outcome) : SameConduct (w.endTask t o) (v.endTask t o) := by
  have stood := same.keeps (·.setPosition t .active none) fun _ _ => setPosition_showing ..
  exact (stood.keeps (·.settle t _) fun _ _ => settle_showing _).focused .idle

theorem resumeTask (same : SameConduct w v) (o : Outcome) : SameConduct (w.resumeTask t o) (v.resumeTask t o) := by
  have own : w.future? t = v.future? t := same.reads (·.future? t) fun _ => rfl
  unfold World.resumeTask
  rw [← own]
  split
  · obtain ⟨x, w', v', here, there, same'⟩ := same.gives (·.wakeUp t _ o) fun _ _ => wakeUp_showing _ o
    rw [here, there]
    cases x with
    | ok _ => exact same'.enter _
    | error e => exact same'.leave _
  · obtain ⟨x, w', v', here, there, same'⟩ := same.gives (·.wakeUp t _ o) fun _ _ => wakeUp_showing _ o
    rw [here, there]
    exact same'.leave x
  · exact same

theorem failBody (same : SameConduct w v) (c : CompletionId) (e : Raised) :
    (∃ x, w.failBody c e = .error x ∧ v.failBody c e = .error x) ∨
    ∃ w' v', w.failBody c e = .ok w' ∧ v.failBody c e = .ok v' ∧ SameConduct w' v' :=
  same.tries (·.failBody c e) fun _ _ => failBody_showing

theorem bodyEnded (same : SameConduct w v) (c : CompletionId) (explicit : Bool) (b : FutureId) :
    SameConduct (w.bodyEnded ⟨tree, s⟩ run node c explicit b)
      (v.bodyEnded ⟨tree, s'⟩ run node c explicit b) := by
  have ended : w.settlement? b = v.settlement? b := same.reads (·.settlement? b) fun _ => rfl
  have completed : w.bodyCompleted c = v.bodyCompleted c := same.reads (·.bodyCompleted c) fun _ => rfl
  have stray {w v : World} (same : SameConduct w v) (x : Fault) : SameConduct (w.emitStray x) (v.emitStray x) :=
    same.keeps (·.emitStray x) fun _ _ => emitStray_showing x
  have unheard (e : Raised) := same.keeps (·.noteUnheard run node c e) fun _ _ => noteUnheard_showing
  simp only [World.bodyEnded, ← ended, ← completed]
  cases w.settlement? b with
  | none => exact same
  | some how =>
    cases how with
    | value _ =>
      obtain ⟨x, w', v', here, there, same'⟩ := same.gives (·.record c (.result {})) fun _ _ => record_showing _
      dsimp only
      split
      · exact same
      · rw [here, there]
        cases x with
        | ok _ => exact same'
        | error x => exact stray same' x
    | cancelled _ =>
      obtain ⟨e, w', v', here, there, same'⟩ := same.raise .bodyCancelled
      dsimp only
      rw [here, there]
      rcases same'.failBody c e with ⟨x, here, there⟩ | ⟨w'', v'', here, there, same''⟩
      · dsimp only
        rw [here, there]
        exact stray same' x
      · dsimp only
        rw [here, there]
        exact same''
    | failed e =>
      cases w.bodyCompleted c with
      | error x => exact stray (unheard e) x
      | ok done =>
        cases done with
        | true =>
          obtain ⟨x, w', v', here, there, same'⟩ :=
            (same.note run (.failed node.head e)).reject tree s s' run e
          dsimp only
          rw [here, there]
          cases x with
          | error refusal => exact stray same' refusal.fault
          | ok rejected =>
            cases rejected with
            | true => exact same'
            | false => exact (same'.log_left _).log_right _
        | false =>
          rcases same.failBody c e with ⟨x, here, there⟩ | ⟨w', v', here, there, same'⟩
          · dsimp only
            rw [here, there]
            exact stray (unheard e) x
          · dsimp only
            rw [here, there]
            exact same'

theorem runJob (same : SameConduct w v) (j : Job) :
    SameConduct (w.runJob ⟨tree, s⟩ j) (v.runJob ⟨tree, s'⟩ j) := by
  cases j with
  | resume t => exact same.resumeTask _
  | wake t f =>
    have settled : w.settlement? f = v.settlement? f := same.reads (·.settlement? f) fun _ => rfl
    simp only [World.runJob, ← settled]
    cases w.settlement? f with
    | none => exact same
    | some how =>
      obtain ⟨o, w', v', here, there, same'⟩ := same.deliver how
      dsimp only
      rw [here, there]
      exact same'.resumeTask o
  | bodyEnded run node c explicit b => exact same.bodyEnded c explicit b
  | childEnded joint child => exact same.keeps (·.childEnded joint child) fun _ _ => childEnded_showing ..
  | release waiter f => exact same.keeps (·.settle waiter (.value .nothing)) fun _ _ => settle_showing _
  | callback scope steps =>
    obtain ⟨x, w', v', here, there, same'⟩ :=
      same.gives (runSteps scope steps) fun _ u => runSteps_showing scope steps u
    simp only [World.runJob]
    rw [here, there]
    cases x with
    | failed e => exact same'.keeps (·.emitStray e.fault) fun _ _ => rfl
    | finished => exact same'
    | returned _ => exact same'
    | paused _ _ => exact same'
  | settle f how =>
    simp only [World.runJob]
    rcases same.tries (·.reachTime f how) fun _ _ => reachTime_showing how with
      ⟨x, here, there⟩ | ⟨w', v', here, there, same'⟩
    · rw [here, there]
      exact same.keeps (·.emitStray x) fun _ _ => rfl
    · rw [here, there]
      exact same'
  | stop => exact same.keeps (fun u => { u with agenda := { u.agenda with stopping := true } }) fun _ _ => rfl

theorem step (same : SameConduct w v) (tree : Tree) (s s' : Settings) :
    Option.Rel SameConduct (w.step ⟨tree, s⟩) (v.step ⟨tree, s'⟩) := by
  have focus : w.focus = v.focus := same.reads (·.focus) fun _ => rfl
  unfold World.step
  rw [← focus]
  cases w.focus with
  | enter t r stack => exact .some (same.enterRoutine r)
  | leave t o stack =>
    cases stack with
    | nil => exact .some (same.endTask o)
    | cons frame stack =>
      cases o with
      | ok y => exact .some (same.resumeFrame y frame)
      | error e => exact .some (same.unwindFrame e frame)
  | idle =>
    have next (u : World) : u.nextJob? = u.unlogged.nextJob?.map u.front.behind := by
      rw [← nextJob?_showing, showing_front]
    have turn (u : World) : u.nextTurn? = u.unlogged.nextTurn?.map (·.showing u.front) := by
      rw [← nextTurn?_showing, showing_front]
    rw [next w, next v, turn w, turn v, ← same.unlogged]
    cases w.unlogged.nextJob? with
    | some job => exact .some ((sameConduct_showing job.2 same.nodes).runJob job.1)
    | none =>
      cases w.unlogged.nextTurn? with
      | some u => exact .some (sameConduct_showing u same.nodes)
      | none => exact .none

theorem does (same : SameConduct w v) (tree : Tree) (s s' : Settings) {x : Doing} (proper : x.isProper) :
    Option.Rel SameConduct (w.does ⟨tree, s⟩ x) (v.does ⟨tree, s'⟩ x) := by
  cases x with
  | step => exact same.step tree s s'
  | supply heap => exact .some (same.keeps (fun u => { u with heap }) fun _ _ => rfl)
  | call r => exact .some (same.keeps (fun u => (u.newTask r).2) fun _ _ => congrArg Prod.snd (newTask_showing r))
  | observe f => exact .some (same.keeps (·.onSettled f .stop) fun _ _ => onSettled_showing _)
  | clear => exact .some same.resetNodes
  | cancel f => exact .some (same.keeps (·.cancel f) fun _ _ => cancel_showing)
  | turn => exact .some (same.keeps (·.beginTurn) fun _ _ => rfl)
  | openLoop n => exact .some (same.keeps (·.openLoop n) fun _ _ => rfl)
  | closeLoop => exact .some (same.keeps (·.dropLoop) fun _ _ => rfl)
  | overwrite _ => cases proper

theorem doesAll (same : SameConduct w v) (tree : Tree) (s s' : Settings) {doings : List Doing}
    (proper : ∀ x ∈ doings, x.isProper) :
    Option.Rel SameConduct (World.doesAll ⟨tree, s⟩ doings w) (World.doesAll ⟨tree, s'⟩ doings v) := by
  induction doings generalizing w v with
  | nil => exact .some same
  | cons x rest ih =>
    have first := same.does tree s s' (proper x List.mem_cons_self)
    rw [World.doesAll, World.doesAll]
    generalize w.does ⟨tree, s⟩ x = here at first ⊢
    generalize v.does ⟨tree, s'⟩ x = there at first ⊢
    cases first with
    | none => exact .none
    | some same' => exact ih same' fun y member => proper y (List.mem_cons_of_mem _ member)

theorem work (same : SameConduct w v) (tree : Tree) (s s' : Settings) (fuel : Nat) (callers callers' : List Caller) :
    SameConduct (World.work ⟨tree, s⟩ fuel callers w).2 (World.work ⟨tree, s'⟩ fuel callers' v).2 := by
  induction fuel generalizing w v callers callers' with
  | zero => exact same
  | succ fuel ih =>
    have first := same.step tree s s'
    rw [World.work, World.work]
    generalize w.step ⟨tree, s⟩ = here at first ⊢
    generalize v.step ⟨tree, s'⟩ = there at first ⊢
    cases first with
    | none => exact same
    | some same' => exact ih same' _ _

theorem nodeState (same : SameConduct w v) (n : Node) :
    v.nodeState n = { w.nodeState n with args := (v.nodeState n).args } := by
  have here := congrArg (·[n.slot]?) same.nodes
  simp only [Array.getElem?_map] at here
  have bare : (v.nodeState n).bare = (w.nodeState n).bare := by
    simp only [World.nodeState]
    cases found : w.nodes[n.slot]? with
    | none =>
      rw [found] at here
      rw [Option.map_eq_none_iff.mp here]
    | some x =>
      rw [found] at here
      obtain ⟨y, found', bare⟩ := Option.map_eq_some_iff.mp here
      rw [found']
      exact bare
  have whole := congrArg (fun x : NodeState => { x with args := (v.nodeState n).args }) bare
  exact whole

end SameConduct

/-- Two machines that differ in their settings, and to which the same is done, do the same: they have the same
journal, so that the same actions are called in the same order at the same times with the same args and the same
payloads are merged, and the same records and args, and their nodes differ in the kept args only. So they do
until nothing is left to do. -/
theorem settings_change_no_run (tree : Tree) (s s' : Settings) (w : World) {doings : List Doing}
    (proper : ∀ x ∈ doings, x.isProper) :
    Option.Rel SameConduct (doesAll ⟨tree, s⟩ doings w) (doesAll ⟨tree, s'⟩ doings w) ∧
    (∀ u u', doesAll ⟨tree, s⟩ doings w = some u → doesAll ⟨tree, s'⟩ doings w = some u' →
      u'.journal = u.journal ∧ u'.records = u.records ∧ u'.heap = u.heap ∧
      ∀ n, u'.nodeState n = { u.nodeState n with args := (u'.nodeState n).args }) ∧
    ∀ fuel callers, SameConduct (work ⟨tree, s⟩ fuel callers w).2 (work ⟨tree, s'⟩ fuel callers w).2 := by
  have led := (SameConduct.refl w).doesAll tree s s' proper
  refine ⟨led, fun u u' done done' => ?_,
    fun fuel callers => (SameConduct.refl w).work tree s s' fuel callers callers⟩
  rw [done, done'] at led
  cases led with | some same =>
  refine ⟨?_, ?_, ?_, same.nodeState⟩ <;> rw [same.elsewhere]

/-- A run that logs nothing of its nodes and keeps no args settles as one that does, and logs less. -/
theorem silent_run_settles_alike :
    let w := ((unused rerun).newTask (.runner .null)).2
    let doings : List Doing := List.replicate 58 .step
    ∃ u u', doesAll ⟨rerun.tree, ⟨true, true, true⟩⟩ doings w = some u ∧
      doesAll ⟨rerun.tree, ⟨false, false, false⟩⟩ doings w = some u' ∧
      u'.journal = u.journal ∧ u'.records = u.records ∧ u.isSettled 0 ∧ u'.logs.size < u.logs.size := by
  intro w doings
  have proper : ∀ x ∈ doings, x.isProper := fun x member => by rw [List.eq_of_mem_replicate member]; rfl
  have settled : (doesAll ⟨rerun.tree, ⟨true, true, true⟩⟩ doings w).any fun u =>
      u.isSettled 0 && u.logs.size == 6 := by
    decide +kernel
  have logged : (doesAll ⟨rerun.tree, ⟨false, false, false⟩⟩ doings w).any fun u => u.logs.size < 6 := by
    decide +kernel
  obtain ⟨u, done, here⟩ := (Option.any_eq_true _ _).mp settled
  obtain ⟨u', done', fewer⟩ := (Option.any_eq_true _ _).mp logged
  obtain ⟨ended, many⟩ := Bool.and_eq_true_iff.mp here
  obtain ⟨journal, records, -, -⟩ :=
    (settings_change_no_run rerun.tree ⟨true, true, true⟩ ⟨false, false, false⟩ w proper).2.1 u u' done done'
  rw [beq_iff_eq] at many
  exact ⟨u, u', done, done', journal, records, ended, many ▸ of_decide_eq_true fewer⟩

end World

end Conductor
