import Conductor.Proofs.Turns
import Mathlib.Algebra.GroupWithZero.Nat

/-!
# What a run still owes

A run calls, completes and follows each node of the graph at most once. Every routine and every frame
of a run owes the nodes that only it may still bring to such a stage. Debts are handed on from one to
the other and are dropped when a branch is not taken or a task fails, but they are never made anew. So
what is owed, together with what was done, never exceeds the nodes of the graph.
-/

namespace Conductor

/-- What a run does with a node at most once. -/
inductive Stage where
  | call | complete | follow
  deriving DecidableEq

def weight (slot : Nat) (nodes : List Node) : Nat := nodes.countP fun n => n.slot == slot

namespace Stage

def reporting : Stage → Node → List Node
  | call, n => n.below
  | _, n => n.nodes

def following : Stage → Node → List Node
  | follow, n => [n]
  | _, _ => []

def reached? : Stage → Happening → Option Head
  | call, .called h _ => some h
  | complete, .completed h _ _ => some h
  | follow, .followed h => some h
  | _, _ => none

end Stage

def World.purposes (w : World) : List Purpose := w.futures.toList.map (·.purpose)

/-- What is counted: the nodes with a slot that a run brings to a stage. -/
structure Account where
  tree : Tree
  run : RunId
  stage : Stage
  slot : Nat

namespace Account

open World

variable (a : Account)

def share (run : RunId) (nodes : List Node) : Nat := if run = a.run then weight a.slot nodes else 0

def ofRoutine : Routine → Nat
  | .drive run => a.share run a.tree.nodes
  | .branches run _ _ entries | .dispatch run _ _ entries _ => a.share run (nodesOf entries)
  | .sequential run node => a.share run node.nodes
  | .member run call _ => a.share run (a.stage.reporting call.node)
  | .follow run node _ => a.share run node.below
  | _ => 0

def ofFrame : Frame → Nat
  | .branches run _ _ rest => a.share run (nodesOf rest)
  | .returning run call | .completing run call _ => a.share run (a.stage.reporting call.node)
  | .following run call _ => a.share run (a.stage.following call.node)
  | _ => 0

def ofStack (stack : List Frame) : Nat := (stack.map a.ofFrame).sum

def ofPurpose : Purpose → Nat
  | .task (.unstarted r) _ _ => a.ofRoutine r
  | .task (.suspended stack) _ _ => a.ofStack stack
  | _ => 0

def ofFocus : Focus → Nat
  | .idle => 0
  | .enter _ r stack => a.ofRoutine r + a.ofStack stack
  | .leave _ _ stack => a.ofStack stack

def waiting (w : World) : Nat := (w.purposes.map a.ofPurpose).sum

def paid (notes : List Note) : Nat :=
  notes.countP fun n => n.1 == a.run && (a.stage.reached? n.2).any fun h => h.slot == a.slot

/-- What there is to be paid: every node of the graph once the run has begun. -/
def limit (w : World) : Nat :=
  if a.run < w.records.size then weight a.slot a.tree.nodes else 0

def total (w : World) : Nat := a.ofFocus w.focus + a.waiting w + a.paid w.notes

/-- Whether no more is owed and done than there is. -/
def Backed (w : World) : Prop := a.total w ≤ a.limit w

variable {a} {w w' : World} {plan : Plan} {run : RunId} {node : Node} {call : Call} {t f : FutureId}
  {stack : List Frame} {e : Raised} {notes more : List Note} {tasks : List (FutureId × Routine)}
  {next : Focus} {body : Option FutureId} {pre : List Note} {h : Head} {s : Settlement} {j : Job}
  {p q : Purpose}

/-! ### Shares -/

theorem weight_append {k : Nat} {l m : List Node} : weight k (l ++ m) = weight k l + weight k m :=
  List.countP_append

theorem share_append {l m : List Node} : a.share run (l ++ m) = a.share run l + a.share run m := by
  unfold share
  split
  · exact weight_append
  · rfl

@[simp] theorem share_nil : a.share run [] = 0 := by simp [share, weight]

theorem share_nodes (run : RunId) (n : Node) : a.share run n.nodes = a.share run [n] + a.share run n.below :=
  share_append (l := [n])

theorem share_entry (n : Node) (rest : List Entry) :
    a.share run (nodesOf (n.entry :: rest)) = a.share run n.nodes + a.share run (nodesOf rest) := by
  rw [nodesOf, share_append, Tree.nodes_entry]

theorem share_nested (members rest : List Entry) : a.share run (nodesOf (.nested members :: rest))
    = a.share run (nodesOf members) + a.share run (nodesOf rest) := by
  rw [nodesOf, share_append, Entry.nodes]

theorem share_le (run : RunId) {l m : List Node} (part : l.Sublist m) : a.share run l ≤ a.share run m := by
  unfold share
  split
  · exact part.countP_le
  · exact Nat.le_refl _

/-! ### Payments -/

@[simp] theorem paid_nil : a.paid [] = 0 := rfl

@[simp] theorem paid_append : a.paid (notes ++ more) = a.paid notes + a.paid more := List.countP_append

theorem paid_cons {n : Note} : a.paid (n :: notes) = a.paid [n] + a.paid notes := by
  rw [← List.singleton_append, paid_append]

theorem paid_other {x : Happening} (other : ∀ stage, Stage.reached? stage x = none) :
    a.paid [(run, x)] = 0 := by
  simp [paid, other]

theorem paid_foreign {x : Happening} (other : run ≠ a.run) : a.paid [(run, x)] = 0 := by
  simp [paid, other]

theorem paid_rejections (only : Rejections run notes) : a.paid notes = 0 := by
  refine List.countP_eq_zero.mpr fun n member => ?_
  obtain ⟨ms, e, rfl⟩ := only n member
  cases a.stage <;> simp [Stage.reached?]

theorem paid_one {x : Happening} (stage : Stage) (node : Node) (own : stage.reached? x = some node.head)
    (others : ∀ other, other ≠ stage → Stage.reached? other x = none) :
    a.paid [(run, x)] = if a.stage = stage then a.share run [node] else 0 := by
  by_cases here : a.stage = stage
  · rw [if_pos here]
    unfold share
    by_cases mine : run = a.run
    · simp [paid, weight, mine, here, own, Node.slot]
    · rw [paid_foreign mine, if_neg mine]
  · rw [if_neg here]
    simp [paid, others _ here]

theorem called_le (run : RunId) (node : Node) (args : Entries) : a.share run (a.stage.reporting node)
    + a.paid [(run, .called node.head args)] ≤ a.share run node.nodes := by
  rw [paid_one .call node rfl (by intro other; cases other <;> simp [Stage.reached?])]
  have whole := share_nodes (a := a) run node
  cases a.stage <;> simp [Stage.reporting]
  omega

theorem completed_le (run : RunId) (node : Node) (r : Result) (payload : Entries) : a.share run node.below
    + a.share run (a.stage.following node) + a.paid [(run, .completed node.head r payload)]
      ≤ a.share run (a.stage.reporting node) := by
  rw [paid_one .complete node rfl
    (by intro other; cases other <;> simp [Stage.reached?])]
  have whole := share_nodes (a := a) run node
  cases a.stage <;> simp [Stage.reporting, Stage.following, share_nil] <;> omega

theorem followed_le (run : RunId) (node : Node) :
    a.paid [(run, .followed node.head)] ≤ a.share run (a.stage.following node) := by
  rw [paid_one .follow node rfl
    (by intro other; cases other <;> simp [Stage.reached?])]
  cases a.stage <;> simp [Stage.following]

theorem paid_failed : a.paid [(run, .failed h e)] = 0 :=
  paid_other (by intro stage; cases stage <;> rfl)

theorem paid_began : a.paid [(run, .began h body)] = 0 :=
  paid_other (by intro stage; cases stage <;> rfl)

theorem paid_ended : a.paid [(run, .ended h)] = 0 :=
  paid_other (by intro stage; cases stage <;> rfl)

theorem paid_spawned {place : Path} : a.paid [(run, .spawned place)] = 0 :=
  paid_other (by intro stage; cases stage <;> rfl)

/-! ### Debts of routines and frames -/

@[simp] theorem ofStack_cons {frame : Frame} : a.ofStack (frame :: stack) = a.ofFrame frame + a.ofStack stack := by
  simp [ofStack]

theorem ofRoutine_foreign {r : Routine} (own : r.run? = none) : a.ofRoutine r = 0 := by
  cases r <;> simp_all [ofRoutine, Routine.run?]

theorem ofTasks_foreign (own : ∀ x ∈ tasks, x.2.run? = none) :
    (tasks.map fun x => a.ofRoutine x.2).sum = 0 := by
  induction tasks with
  | nil => rfl
  | cons x rest ih =>
    rw [List.map_cons, List.sum_cons, ofRoutine_foreign (own x List.mem_cons_self), Nat.zero_add]
    exact ih fun y member => own y (List.mem_cons_of_mem _ member)

theorem ofFrame_foreign {frame : Frame} (own : frame.run? = none) : a.ofFrame frame = 0 := by
  cases frame <;> simp_all [ofFrame, Frame.run?]

theorem ofStack_foreign {frames : List Frame} (own : ∀ frame ∈ frames, frame.run? = none) :
    a.ofStack (frames ++ stack) = a.ofStack stack := by
  induction frames with
  | nil => rfl
  | cons frame rest ih =>
    rw [List.cons_append, ofStack_cons, ofFrame_foreign (own frame List.mem_cons_self), Nat.zero_add]
    exact ih fun frame' member => own frame' (List.mem_cons_of_mem _ member)

@[simp] theorem ofFocus_enter {r : Routine} : a.ofFocus (.enter t r stack) = a.ofRoutine r + a.ofStack stack :=
  rfl

@[simp] theorem ofFocus_leave {o : Outcome} : a.ofFocus (.leave t o stack) = a.ofStack stack := rfl

@[simp] theorem ofRoutine_wait : a.ofRoutine (.wait f) = 0 := rfl

theorem ofFocus_plays (plays : Plays w t stack next) : a.ofFocus next = a.ofStack stack := by
  cases plays with
  | left _ => rfl
  | entered r frames own foreign _ =>
    rw [ofFocus, ofRoutine_foreign own, ofStack_foreign foreign, Nat.zero_add]

theorem lost_le (lost : Lost run h e pre t stack w notes w' next) :
    a.ofFocus next = a.ofStack stack ∧ a.paid notes = a.paid pre := by
  cases lost with
  | mk _ rest =>
    refine ⟨rfl, ?_⟩
    rw [paid_append, paid_cons, paid_failed, paid_rejections rest.only]
    omega

theorem finished_le (finished : Finished plan run call body pre t stack w notes w' next) :
    a.ofFocus next + a.paid notes
      ≤ a.share run (a.stage.reporting call.node) + a.ofStack stack + a.paid pre := by
  cases finished with
  | lost lost =>
    obtain ⟨focus, paid⟩ := lost_le (a := a) lost
    omega
  | moot _ _ =>
    rw [ofFocus_leave]
    omega
  | @followed _ _ r payload _ _ _ _ =>
    have debt := completed_le (a := a) run call.node r payload
    rw [paid_cons]
    simp only [ofFocus_enter, ofStack_cons, ofRoutine, ofFrame]
    omega

/-- An act leaves no more owed and done than there was, unless it begins a run. -/
theorem act_le {focus : Focus} (own : a.tree = plan.tree)
    (act : Act plan w focus notes tasks w' next) :
    a.ofFocus next + (tasks.map fun x => a.ofRoutine x.2).sum + a.paid notes ≤ a.ofFocus focus +
      if w.records.size < w'.records.size ∧ w.records.size = a.run then weight a.slot a.tree.nodes
      else 0 := by
  cases act with
  | launched _ _ _ records _ _ =>
    have more : w.records.size < w'.records.size := by simp [records]
    simp [ofRoutine, ofFrame, share, more]
  | played _ _ _ plays =>
    rw [ofFocus_plays plays]
    simp
    omega
  | replayed _ _ plays =>
    rw [ofFocus_plays plays]
    simp
    omega
  | driven =>
    simp [ofRoutine, ofFrame, own, Tree.nodes]
  | single node _ =>
    simp [ofRoutine, ofFrame, share_entry]
    omega
  | grouped _ =>
    simp [ofRoutine, ofFrame, share_nested]
    omega
  | @sequenced t run call stack args notes _ _ _ finished =>
    have books := finished_le (a := a) finished
    have called := called_le (a := a) run call.node args
    simp [ofRoutine]
    omega
  | @inside t run call stack args =>
    have called := called_le (a := a) run call.node args
    rw [paid_cons, paid_began]
    simp [ofRoutine, ofFrame]
    omega
  | @outside t run call stack args =>
    have called := called_le (a := a) run call.node args
    rw [paid_cons, paid_began]
    simp [ofRoutine, ofFrame]
    omega
  | joined _ _ =>
    simp [ofFrame]
    omega
  | @undispatched t run place position node rest chains stack args e notes _ _ _ lost =>
    obtain ⟨focus, paid⟩ := lost_le (a := a) lost
    have called := called_le (a := a) run node args
    simp [ofRoutine, share_entry]
    omega
  | @plain t run place position call rest chains stack args =>
    have called := called_le (a := a) run call.node args
    simp [ofRoutine, share_entry]
    omega
  | @watched t run place position call rest chains stack args bodies _ _ _ _ _ _ scripts =>
    have called := called_le (a := a) run call.node args
    have none := ofTasks_foreign (a := a) fun x member => (scripts x member).1
    rw [paid_cons, paid_began, List.map_cons, List.sum_cons, none]
    simp [ofRoutine, share_entry]
    omega
  | spawned _ =>
    rw [paid_spawned]
    simp [ofRoutine, share_nested]
    omega
  | asked _ =>
    simp [ofRoutine, ofFrame]
  | absent _ =>
    simp [ofRoutine]
  | unasked lost =>
    obtain ⟨focus, paid⟩ := lost_le (a := a) lost
    simp [ofRoutine, focus, paid]
    omega
  | missed _ _ _ =>
    rw [paid_failed]
    simp [ofRoutine]
    omega
  | unrouted _ =>
    simp [ofRoutine]
  | @routed t run node r stack key declared inner _ _ route =>
    have part := share_le (a := a) run (Tree.route_sublist route)
    simp [ofRoutine]
    omega
  | @resolved t run v stack notes _ _ _ _ only _ =>
    have none : a.paid notes = 0 := by
      refine List.countP_eq_zero.mpr fun n member => ?_
      obtain ⟨ms, rfl⟩ := only n member
      cases a.stage <;> simp [Stage.reached?]
    simp [none, ofFrame]
  | resumed =>
    simp [ofRoutine, ofFrame]
  | returned finished =>
    have books := finished_le (a := a) finished
    rw [paid_ended] at books
    simp [ofFrame]
    omega
  | gathered =>
    simp [ofFrame]
  | completed finished =>
    have books := finished_le (a := a) finished
    simp [ofFrame] at books ⊢
    omega
  | @followed t run v call stack =>
    have paid := followed_le (a := a) run call.node
    simp [ofFrame]
    omega
  | @lingering t run v call body stack =>
    have paid := followed_le (a := a) run call.node
    simp [ofFrame]
    omega
  | finished =>
    simp [ofFrame]
  | rejected losing =>
    simp [ofFrame, paid_rejections losing.only]
  | unreturned lost =>
    obtain ⟨focus, paid⟩ := lost_le (a := a) lost
    simp [ofFrame, focus, paid]
    omega
  | uncompleted lost =>
    obtain ⟨focus, paid⟩ := lost_le (a := a) lost
    simp [ofFrame, focus, paid]
    omega
  | unfollowed losing =>
    simp [ofFrame, paid_rejections losing.only]
    omega
  | unfinished losing =>
    simp [ofFrame, paid_rejections losing.only]
  | _ => simp [ofRoutine, ofFrame]

/-! ### Debts of tasks -/

theorem purposes_getElem? : w.purposes[f]? = w.purpose? f := by
  simp [World.purposes, purpose?, future?]

theorem waiting_congr (same : ∀ f, w'.purpose? f = w.purpose? f) : a.waiting w' = a.waiting w := by
  have all : w'.purposes = w.purposes := by
    apply List.ext_getElem?
    intro f
    rw [purposes_getElem?, purposes_getElem?, same]
  rw [waiting, waiting, all]

theorem waiting_futures (futures : w'.futures = w.futures) : a.waiting w' = a.waiting w :=
  waiting_congr fun _ => purpose?_congr futures

theorem waiting_settle : a.waiting (w.settle f s) = a.waiting w := waiting_congr fun _ => purpose?_settle

theorem waiting_onSettled : a.waiting (w.onSettled f j) = a.waiting w :=
  waiting_congr fun _ => purpose?_onSettled

theorem waiting_post (loop : Nat) : a.waiting (w.post loop j) = a.waiting w :=
  waiting_congr fun _ => purpose?_post loop

theorem waiting_newFuture (p : Purpose) :
    a.waiting (w.newFuture p).2 = a.waiting w + a.ofPurpose p := by
  simp [waiting, World.purposes, newFuture]

theorem waiting_newPlain (role : Role) : a.waiting (w.newFuture (.plain role)).2 = a.waiting w :=
  waiting_newFuture _

theorem waiting_newTask (r : Routine) :
    a.waiting (w.newTask r).2 = a.waiting w + a.ofRoutine r :=
  (waiting_post _).trans (waiting_newFuture _)

theorem sum_set {l : List Purpose} (own : l[f]? = some p) (g : Purpose → Nat) :
    g p + ((l.set f q).map g).sum = g q + (l.map g).sum := by
  induction l generalizing f with
  | nil => simp at own
  | cons x rest ih =>
    cases f with
    | zero =>
      obtain rfl : x = p := by simpa using own
      simp
      omega
    | succ f =>
      have later := ih own
      simp at later ⊢
      omega

/-- A future is given another purpose, and what it owes changes with that. -/
theorem waiting_repurpose (own : w.purpose? f = some p) :
    a.ofPurpose p + a.waiting (w.repurpose f q) = a.ofPurpose q + a.waiting w := by
  have same : (w.repurpose f q).purposes = w.purposes.set f q := by
    apply List.ext_getElem?
    intro g
    rw [purposes_getElem?, purpose?_repurpose, List.getElem?_set, purposes_getElem?]
    by_cases here : g = f
    · subst here
      have bound : g < w.purposes.length := by
        simpa [World.purposes] using purpose?_lt own
      simp [own, bound]
    · rw [if_neg here, if_neg fun same => here same.symm]
  rw [waiting, waiting, same]
  exact sum_set (by rw [purposes_getElem?, own]) _

theorem waiting_scripted (h : Scripted w w') : a.waiting w' = a.waiting w := by
  induction h with
  | aside _ futures _ _ => exact waiting_futures futures
  | reported _ _ _ => exact waiting_settle
  | postponed _ _ _ => exact waiting_futures rfl
  | queued _ _ => exact waiting_post _
  | made => exact waiting_newPlain _
  | timed _ _ => exact (waiting_futures rfl).trans (waiting_newPlain .timed)
  | settled _ _ _ futures _ =>
    exact waiting_settle.trans ((waiting_futures futures).trans (waiting_newPlain .timed))
  | trans _ _ ih ih' => exact ih'.trans ih

theorem waiting_newJoint (chains : List FutureId) : a.waiting (w.newJoint chains).2 = a.waiting w := by
  have registered (l : List FutureId) (w : World) (g : FutureId) :
      a.waiting (l.foldl (fun w child => w.onSettled child (.childEnded g child)) w) = a.waiting w := by
    induction l generalizing w with
    | nil => rfl
    | cons c rest ih => exact (ih _).trans waiting_onSettled
  have made : a.waiting (w.newFuture (.joint chains 0 false)).2 = a.waiting w := waiting_newFuture _
  unfold World.newJoint
  dsimp only
  split
  · exact waiting_settle.trans made
  · exact (registered chains _ _).trans made

theorem waiting_effect (h : Effect notes tasks w w') :
    a.waiting w' = a.waiting w + (tasks.map fun x => a.ofRoutine x.2).sum := by
  induction h with
  | kept d => exact waiting_futures d.loop.futures
  | scripted done => exact waiting_scripted done
  | @described w d =>
    obtain ⟨r, -, same⟩ | same := newCompletion_cases (w := w) (d := d) <;> rw [same]
    · exact waiting_futures rfl
    · exact (waiting_futures rfl).trans (waiting_newPlain .report)
  | recorded _ _ _ => exact (waiting_futures rfl).trans (waiting_newPlain _)
  | tasked r _ => simp [waiting_newTask]
  | watched _ _ _ _ _ => exact waiting_onSettled.trans (waiting_futures rfl)
  | joined _ _ => exact waiting_newJoint _
  | waited _ => exact waiting_onSettled.trans (waiting_newPlain _)
  | concluded _ _ _ => exact waiting_settle.trans (waiting_futures rfl)
  | failed _ _ _ _ => exact waiting_settle
  | trans _ _ ih ih' =>
    rw [ih', ih, List.map_append, List.sum_append]
    omega

theorem ofPurpose_agrees (agrees : Purpose.agrees p q) : a.ofPurpose q = a.ofPurpose p := by
  cases p <;> cases q <;> simp only [Purpose.agrees] at agrees
  · rfl
  · rfl
  · obtain ⟨rfl, rfl⟩ := agrees
    rename_i position _ _
    cases position <;> rfl

theorem waiting_setPosition {before : Option FutureId} (active : w.Stands t .active before)
    (position : Position) (waits : Option FutureId) : a.waiting (w.setPosition t position waits)
      = a.ofPurpose (.task position waits false) + a.waiting w := by
  obtain ⟨mustCancel, own⟩ := active
  have moved := waiting_repurpose (a := a) (q := .task position waits mustCancel) own
  have none : a.ofPurpose (.task .active before mustCancel) = 0 := rfl
  have same : a.ofPurpose (.task position waits mustCancel) = a.ofPurpose (.task position waits false) :=
    ofPurpose_agrees ⟨rfl, rfl⟩
  unfold World.setPosition
  rw [own]
  dsimp only
  omega

theorem waiting_interrupted (i : Interrupted w w') : a.waiting w' = a.waiting w := by
  have changed {w : World} {f : FutureId} {p q : Purpose} (own : w.purpose? f = some p)
      (agrees : Purpose.agrees p q) : a.waiting (w.repurpose f q) = a.waiting w := by
    have moved := waiting_repurpose (a := a) (q := q) own
    rw [ofPurpose_agrees agrees] at moved
    omega
  induction i with
  | refl _ => rfl
  | settled _ => exact waiting_settle
  | asked joint => exact changed joint ⟨rfl, rfl⟩
  | told task => exact changed task ⟨rfl, rfl⟩
  | trans _ _ ih ih' => exact ih'.trans ih

theorem waiting_childEnded (g c : FutureId) : a.waiting (w.childEnded g c) = a.waiting w := by
  obtain same | ⟨children, ended, requested, s, n, -, own, result⟩ := childEnded_cases (w := w) g c
  · rw [same]
  · have counted := waiting_repurpose (a := a) (q := .joint children (ended + 1) requested) own
    simp only [ofPurpose, Nat.zero_add] at counted
    obtain ⟨same, -⟩ | ⟨s', same, -, -⟩ := result _ rfl <;> rw [same]
    · exact counted
    · exact waiting_settle.trans counted

theorem waiting_resumeTask (t : FutureId) (o : Outcome) :
    a.ofFocus (w.resumeTask t o).focus + a.waiting (w.resumeTask t o) ≤ a.ofFocus w.focus + a.waiting w := by
  obtain same | ⟨position, waits, mustCancel, focus, n, o', -, own, -, same, goesOn⟩ :=
    resumeTask_cases (w := w) t o
  · exact Nat.le_of_eq (by rw [same])
  rw [same]
  have moved := waiting_repurpose (a := a) (q := .task .active none false) own
  have active : a.ofPurpose (.task .active none false) = 0 := rfl
  have there : a.waiting (((w.activate t).raisedTo n).focusOn focus)
      = a.waiting (w.repurpose t (.task .active none false)) := rfl
  have less : a.ofFocus focus ≤ a.ofPurpose (.task position waits mustCancel) := by
    rcases goesOn with ⟨r, rfl, ⟨v, -, rfl⟩ | ⟨e, -, rfl⟩⟩ | ⟨stack, rfl, rfl⟩
    · exact Nat.le_refl _
    · exact Nat.zero_le _
    · exact Nat.le_refl _
  have focused : a.ofFocus (((w.activate t).raisedTo n).focusOn focus).focus = a.ofFocus focus := rfl
  rw [there, focused]
  omega

/-! ### Backed states -/

theorem records_le (grown : Grown w w') : w.records.size ≤ w'.records.size := by
  rcases Nat.eq_zero_or_pos w.records.size with none | some
  · exact none ▸ Nat.zero_le _
  · have last : w.records.size - 1 < w.records.size := by omega
    have there := grown.outcomes (w.records.size - 1) (w.records[w.records.size - 1].outcome)
      (by simp [outcome?, record?, last])
    obtain ⟨r, found, -⟩ := Option.map_eq_some_iff.mp there
    have bound : w.records.size - 1 < w'.records.size := (Array.getElem?_eq_some_iff.mp found).1
    omega

theorem limit_le (grown : Grown w w') : a.limit w ≤ a.limit w' := by
  have size := records_le grown
  unfold limit
  split
  · rename_i begun
    exact Nat.le_of_eq (if_pos (Nat.lt_of_lt_of_le begun size)).symm
  · exact Nat.zero_le _

theorem total_keep (paid : a.paid w'.notes = a.paid w.notes)
    (debts : a.ofFocus w'.focus + a.waiting w' ≤ a.ofFocus w.focus + a.waiting w) : a.total w' ≤ a.total w := by
  unfold total
  omega

theorem total_act (own : a.tree = plan.tree) (act : Act plan w w.focus notes tasks w' next) :
    a.total (w'.focusOn next) ≤ a.total w +
      if w.records.size < w'.records.size ∧ w.records.size = a.run then weight a.slot a.tree.nodes else 0 := by
  have books := act_le own act
  have noted : a.paid (w'.focusOn next).notes = a.paid notes + a.paid w.notes := by
    rw [← paid_append, ← act.effect.noted]
    rfl
  have waits : a.waiting (w'.focusOn next) = a.waiting w + (tasks.map fun x => a.ofRoutine x.2).sum :=
    (waiting_futures (w := w') rfl).trans (waiting_effect act.effect)
  have focus : a.ofFocus (w'.focusOn next).focus = a.ofFocus next := rfl
  unfold total
  rw [noted, waits, focus]
  omega

theorem paid_told (told : Told j notes w w') : a.paid notes = 0 := by
  cases told with
  | played _ => rfl
  | body ends =>
    cases ends with
    | quiet _ _ => rfl
    | doomed _ _ _ => rfl
    | unheard _ _ => exact paid_other (by intro stage; cases stage <;> rfl)
    | rejecting _ only _ _ => rw [paid_append, paid_rejections only, paid_failed]

theorem total_handled (rest : Handled j w w') : a.total w' ≤ a.total w := by
  cases rest with
  | effect e told =>
    refine total_keep ?_ ?_
    · rw [e.noted, paid_append, paid_told told, Nat.zero_add]
    · rw [e.focus, waiting_effect e]
      simp
  | resumed => exact total_keep (by rw [notes_congr (Quiet.resumeTask _ _).journal]) (waiting_resumeTask _ _)
  | @woken t f _ s _ =>
    have delivered : a.total (w.deliver s).2 ≤ a.total w := by
      refine total_keep (by rw [notes_congr (Quiet.deliver s).journal]) ?_
      exact Nat.le_of_eq (by rw [(Effect.deliver s).focus, waiting_futures (deliver_futures s)])
    refine Nat.le_trans (total_keep ?_ (waiting_resumeTask _ _)) delivered
    rw [notes_congr (Quiet.resumeTask _ _).journal]
  | @counted g c =>
    refine total_keep (by rw [notes_congr (Quiet.childEnded g c).journal]) ?_
    exact Nat.le_of_eq (by rw [waiting_childEnded, focus_childEnded])
  | freed =>
    refine total_keep (by rw [notes_congr settle_sameRuns.journal]) ?_
    exact Nat.le_of_eq (by rw [waiting_settle, settle_sameRuns.focus])
  | @matured f _ _ s n _ =>
    refine total_keep (by rw [notes_congr (settle_sameRuns (w := w.raisedTo n)).journal]; rfl) ?_
    exact Nat.le_of_eq (by rw [waiting_settle, settle_sameRuns.focus]; rfl)
  | stopped => exact Nat.le_refl _

theorem total_suspended (tasks : w.Tasks) (busy : w.focus = .enter t (.wait f) stack)
    (pending : w.settlement? f = none) : a.total (w.suspend t f stack) ≤ a.total w := by
  have active := (tasks.focus t (by rw [busy]; rfl)).2
  have moved := waiting_setPosition (a := a) active (.suspended stack) (some f)
  have waits : a.waiting (w.suspend t f stack) = a.ofStack stack + a.waiting w :=
    (waiting_futures (w := (w.setPosition t (.suspended stack) (some f)).onSettled f (.wake t f))
      rfl).trans (waiting_onSettled.trans moved)
  have noted := notes_congr (Quiet.handover (.suspended busy pending)).journal
  refine total_keep (congrArg a.paid noted) ?_
  have focus : a.ofFocus (w.suspend t f stack).focus = 0 := rfl
  rw [waits, focus, busy, ofFocus_enter, ofRoutine_wait]
  omega

theorem total_yielded (tasks : w.Tasks) (busy : w.focus = .enter t .yield stack) :
    a.total (((w.setPosition t (.suspended stack) none).post w.agenda.loop (.resume t)).focusOn .idle)
      ≤ a.total w := by
  have active := (tasks.focus t (by rw [busy]; rfl)).2
  have moved := waiting_setPosition (a := a) active (.suspended stack) none
  have posted : a.waiting (((w.setPosition t (.suspended stack) none).post w.agenda.loop
      (.resume t)).focusOn .idle) = a.waiting (w.setPosition t (.suspended stack) none) :=
    (waiting_futures rfl).trans
      (waiting_post (w := w.setPosition t (.suspended stack) none) w.agenda.loop)
  have noted := notes_congr (Quiet.handover (.yielded busy)).journal
  refine total_keep (congrArg a.paid noted) ?_
  have none : a.ofRoutine .yield = 0 := rfl
  have owed : a.ofPurpose (.task (.suspended stack) .none false) = a.ofStack stack := rfl
  have focus : a.ofFocus .idle = 0 := rfl
  rw [posted, moved, owed, busy, ofFocus_enter, none]
  change a.ofFocus .idle + _ ≤ _
  omega

theorem total_ended (tasks : w.Tasks) {o : Outcome} (busy : w.focus = .leave t o []) :
    a.total (w.endTask t o) ≤ a.total w := by
  have active := (tasks.focus t (by rw [busy]; rfl)).2
  have moved := waiting_setPosition (a := a) active .active none
  obtain ⟨s, same, -, -⟩ := endTask_cases (w := w) t o
  have waits : a.waiting (w.endTask t o) = a.waiting (w.setPosition t .active none) :=
    same ▸ (waiting_futures (w := (w.setPosition t .active none).settle t s) rfl).trans waiting_settle
  have noted := notes_congr (Quiet.endTask (w := w) t o).journal
  refine total_keep (congrArg a.paid noted) ?_
  have none : a.ofPurpose (.task .active .none false) = 0 := rfl
  have focus : a.ofFocus (w.endTask t o).focus = 0 := same ▸ rfl
  rw [waits, moved, none, focus]
  omega

/-- What leaves futures, the journal and the task at work alone changes no debt. -/
theorem total_aside (futures : w'.futures = w.futures) (journal : w'.journal = w.journal)
    (focus : w'.focus = w.focus) : a.total w' ≤ a.total w := by
  refine total_keep (congrArg a.paid (notes_congr journal)) ?_
  exact Nat.le_of_eq (by rw [waiting_futures futures, focus])

theorem total_called {r : Routine} (caller : r.isCaller) : a.total (w.newTask r).2 ≤ a.total w := by
  have owes : a.ofRoutine r = 0 := by
    refine ofRoutine_foreign ?_
    cases r <;> simp_all [Routine.isCaller, Routine.run?]
  refine total_keep (congrArg a.paid (notes_congr (newTask_sameRuns r).journal)) ?_
  rw [waiting_newTask, owes, (newTask_sameRuns r).focus]
  exact Nat.le_refl _

theorem total_interrupted (i : Interrupted w w') : a.total w' ≤ a.total w := by
  refine total_keep (congrArg a.paid (notes_congr (Quiet.interrupted i).journal)) ?_
  exact Nat.le_of_eq (by rw [waiting_interrupted i, focus_interrupted i])

theorem total_move (sound : w.Sound) (own : a.tree = plan.tree) (m : Move plan w w') :
    a.total w' ≤ a.total w + if w.records.size < w'.records.size ∧ w.records.size = a.run
      then weight a.slot a.tree.nodes else 0 := by
  have less (le : a.total w' ≤ a.total w) : a.total w' ≤ a.total w +
      if w.records.size < w'.records.size ∧ w.records.size = a.run then weight a.slot a.tree.nodes
      else 0 := Nat.le_add_right_of_le le
  cases m with
  | stepped stepped =>
    cases step_stepped sound.steady stepped with
    | acted act => exact total_act own act
    | suspended busy pending => exact less (total_suspended sound.tasks busy pending)
    | yielded busy => exact less (total_yielded sound.tasks busy)
    | ended busy => exact less (total_ended sound.tasks busy)
    | handled idle next =>
      have same := nextJob_sameRuns next
      have futures := nextJob_futures next
      exact less (Nat.le_trans (total_handled (sound.steady.handled next))
        (total_aside futures same.journal same.focus))
    | turned idle next =>
      obtain ⟨_, -, rfl⟩ := nextTurn_cases next
      exact less (total_aside rfl rfl rfl)
  | supplied _ => exact less (total_aside rfl rfl rfl)
  | called r caller => exact less (total_called caller)
  | observed f =>
    refine less (total_keep (congrArg a.paid (notes_congr onSettled_sameRuns.journal)) ?_)
    exact Nat.le_of_eq (by rw [waiting_onSettled, onSettled_sameRuns.focus])
  | cleared => exact less (total_aside rfl rfl rfl)
  | cancelled f => exact less (total_interrupted (cancel_interrupted f))
  | turned => exact less (total_aside rfl rfl rfl)
  | opened _ _ _ _ => exact less (total_aside rfl rfl rfl)
  | closed _ => exact less (total_aside rfl rfl rfl)

theorem total_le (sound : w.Sound) (own : a.tree = plan.tree) (known : (w.record? a.run).isSome)
    (m : Move plan w w') : a.total w' ≤ a.total w := by
  have moved := total_move sound own m
  obtain ⟨r, found⟩ := Option.isSome_iff_exists.mp known
  have bound : a.run < w.records.size := (Array.getElem?_eq_some_iff.mp found).1
  rw [if_neg fun begins => absurd begins.2 (Nat.ne_of_gt bound)] at moved
  exact moved

theorem Backed.move (h : a.Backed w) (sound : w.Sound) (own : a.tree = plan.tree) (m : Move plan w w') :
    a.Backed w' := by
  have books := total_move sound own m
  have limit := limit_le (a := a) (m.grown sound.steady)
  unfold Backed at h ⊢
  split at books
  · -- the run begins here: nothing was owed before
    rename_i begun
    obtain ⟨more, mine⟩ := begun
    have before : ¬ a.run < w.records.size := mine ▸ Nat.lt_irrefl _
    have now : a.run < w'.records.size := mine ▸ more
    have none : a.limit w = 0 := if_neg before
    have all : a.limit w' = weight a.slot a.tree.nodes := if_pos now
    omega
  · omega

theorem Backed.fresh (h : w.Fresh) : a.Backed w := by
  have focus : a.ofFocus w.focus = 0 := by rw [h.focus]; rfl
  have waits : a.waiting w = 0 := by simp [waiting, World.purposes, h.futures]
  have noted : a.paid w.notes = 0 := by simp [World.notes, h.journal]
  unfold Backed total
  omega

/-- In every reachable state a run has called, completed and followed each node at most as often as
the node occurs in the graph, what it still owes included. -/
theorem backed_of_reachable (h : Reachable plan w) (own : a.tree = plan.tree) : a.Backed w := by
  induction h with
  | fresh fresh => exact .fresh fresh
  | move reached m ih => exact ih.move reached.sound own m

/-! ### What happens once -/

theorem weight_le_one {t : Tree} (compiled : t.Compiled) (slot : Nat) : weight slot t.nodes ≤ 1 := by
  have once := List.nodup_iff_count_le_one.mp compiled.slots slot
  rwa [List.count, List.countP_map] at once

theorem paid_pos {x : Happening} (member : (run, x) ∈ notes) (reached : a.stage.reached? x = some h)
    (mine : run = a.run) (slot : h.slot = a.slot) : 0 < a.paid notes :=
  List.countP_pos_iff.mpr ⟨_, member, by simp [mine, reached, slot]⟩

end Account

namespace World

open Account

variable {plan : Plan} {w w' : World} {run : RunId} {h h' : Head} {args : Entries} {notes : List Note}
  {tasks : List (FutureId × Routine)} {next : Focus} {body : Option FutureId}

theorem Reachable.total_le_one {a : Account} (reached : Reachable plan w) (compiled : plan.tree.Compiled)
    (own : a.tree = plan.tree) : a.total w ≤ 1 := by
  refine Nat.le_trans (backed_of_reachable reached own) ?_
  unfold limit
  split
  · rw [own]
    exact weight_le_one compiled _
  · exact Nat.zero_le _

theorem Reachable.once (reached : Reachable plan w) (compiled : plan.tree.Compiled) (stage : Stage)
    {later earlier : List Note} {x y : Happening} (split : w.notes = later ++ earlier)
    (new : (run, x) ∈ later) (old : (run, y) ∈ earlier) (here : stage.reached? x = some h)
    (there : stage.reached? y = some h') (same : h.slot = h'.slot) : False := by
  let a : Account := ⟨plan.tree, run, stage, h.slot⟩
  have most : a.total w ≤ 1 := reached.total_le_one compiled rfl
  have first := paid_pos (a := a) new here rfl rfl
  have second := paid_pos (a := a) old there rfl same.symm
  unfold total at most
  rw [split, paid_append] at most
  omega

theorem Reachable.unique (reached : Reachable plan w) (compiled : plan.tree.Compiled) (stage : Stage)
    {x y : Happening} (noted : (run, x) ∈ w.notes) (noted' : (run, y) ∈ w.notes)
    (here : stage.reached? x = some h) (there : stage.reached? y = some h') (same : h.slot = h'.slot) :
    x = y := by
  obtain ⟨later, earlier, split⟩ := List.append_of_mem noted
  have split' : w.notes = (later ++ [(run, x)]) ++ earlier := by simpa using split
  rw [split] at noted'
  rcases List.mem_append.mp noted' with after | rest
  · exact (reached.once compiled stage split after List.mem_cons_self there here same.symm).elim
  · rcases List.mem_cons.mp rest with now | before
    · exact (congrArg Prod.snd now).symm
    · exact (reached.once compiled stage split' (by simp) before here there same).elim

theorem Reachable.recorded (reached : Reachable plan w) (stage : Stage) {x : Happening}
    (noted : (run, x) ∈ w.notes) (here : stage.reached? x = some h) : run < w.records.size := by
  let a : Account := ⟨plan.tree, run, stage, h.slot⟩
  have backed : a.Backed w := backed_of_reachable reached rfl
  have paid := paid_pos (a := a) noted here rfl rfl
  by_contra missing
  have none : a.limit w = 0 := if_neg missing
  unfold Backed total at backed
  omega

theorem Reachable.known (reached : Reachable plan w) (called : (run, .called h args) ∈ w.notes) :
    (w.record? run).isSome := by
  have bound := reached.recorded .call called rfl
  simp [record?, bound]

theorem Move.begun (reached : Reachable plan w) (compiled : plan.tree.Compiled) (m : Move plan w w')
    (called : (run, .called h args) ∈ w.notes) (begun : (run, .began h body) ∈ w'.notes) :
    (run, .began h body) ∈ w.notes := by
  obtain ⟨notes, noting⟩ := m.noting reached.sound
  have split := noting.noted
  rw [split] at begun
  rcases List.mem_append.mp begun with new | old
  · cases noting.happens new with
    | began n _ _ again _ =>
      obtain ⟨args', again⟩ := again
      exact (Reachable.once (.move reached m) compiled .call split again called rfl rfl rfl).elim
  · exact old

theorem Reachable.begun (reached : Reachable plan w) (begun : (run, .began h body) ∈ w.notes) :
    ∃ args, (run, .called h args) ∈ w.notes := by
  refine reached.forall_notes (P := fun w x => ∀ h body, x.2 = .began h body → ∃ args, (x.1, .called h args) ∈ w.notes)
    (fun before m x earlier h body same => ?_) (fun before m noting x new h body same => ?_) _ begun _ _ rfl
  · obtain ⟨args, called⟩ := earlier h body same
    exact ⟨args, (m.grown before.sound.steady).subset_notes called⟩
  · obtain ⟨run, x⟩ := x
    obtain rfl : x = _ := same
    cases noting.happens new with
    | began n _ _ called _ =>
      obtain ⟨args, called⟩ := called
      exact ⟨args, noting.noted ▸ List.mem_append_left _ called⟩

end World

end Conductor
