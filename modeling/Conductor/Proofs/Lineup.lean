import Conductor.Proofs.Arrangement
import Conductor.Proofs.Attendance
import Conductor.Proofs.Duties

/-!
# Chains that stand in line

The chains of a group are made in the order of its members and begin in that order, because the queue gives
out first what was put in first. When all members have reported before they begin, and nothing else is to be
waited for, each chain goes through to its end at once: no chain begins before all earlier ones have ended.
-/

namespace Conductor.World

open Account Conductor.Tree

variable {plan : Plan} {w w' : World} {run other : RunId} {t c c' f : FutureId} {call : Call}
  {body : Option FutureId} {waiting : Option FutureId} {notes : List Note} {tasks : List (FutureId × Routine)}
  {next : Focus} {r : Routine} {n n' : Node} {aim : FutureId → Aim} {stack : List Frame} {a goal : Aim}
  {members entries : List Entry} {place : Path} {s : Settlement} {x e : Entry} {i j : Nat}

/-! ### Chains that have not begun -/

theorem ofRoutine_le_waiting {a : Account} (stood : w.Stands t (.unstarted r) waiting) :
    a.ofRoutine r ≤ a.waiting w := by
  obtain ⟨asked, own⟩ := stood
  have freed := waiting_repurpose (a := a) (q := .plain .timed) own
  simp only [ofPurpose] at freed
  omega

theorem Reachable.uncompleted (reached : Reachable plan w) (compiled : plan.tree.Compiled)
    (stood : w.Stands t (.unstarted (.member run call body)) waiting) (within : n ∈ call.node.nodes)
    (result : Result) (payload : Entries) : (run, .completed n.head result payload) ∉ w.notes := by
  intro completed
  let a : Account := ⟨plan.tree, run, .complete, n.slot⟩
  have most : a.total w ≤ 1 := reached.total_le_one compiled rfl
  have paid := paid_pos (a := a) completed rfl rfl rfl
  have owed : 0 < a.ofRoutine (.member run call body) := by
    have counted : 0 < weight n.slot call.node.nodes := List.countP_pos_iff.mpr ⟨n, within, by simp⟩
    simpa [a, ofRoutine, share, Stage.reporting] using counted
  have waits := ofRoutine_le_waiting (a := a) stood
  unfold total at most
  omega

/-- A chain is made where a group calls its member, with the descriptor that the member is given, after
everything else that the call has made. -/
theorem Act.chains (act : Act plan w w.focus notes tasks w' next) (made : (c, .member run call body) ∈ tasks) :
    c + 1 = w'.futures.size ∧ call.completion = w.completions.size ∧ ∃ t place position rest chains stack,
      w.focus = .enter t (.dispatch run place position (call.node.entry :: rest) chains) stack := by
  generalize w.focus = focus at act
  cases act with
  | plain call _ _ _ own _ =>
    obtain ⟨rfl, same⟩ := Prod.mk.inj (List.mem_singleton.mp made)
    obtain ⟨rfl, rfl, -⟩ := Routine.member.inj same
    exact ⟨(size_newTask _).symm, own, _, _, _, _, _, _, rfl⟩
  | watched call _ _ _ scripts _ _ _ _ own _ =>
    rcases List.mem_cons.mp made with now | script
    · obtain ⟨rfl, same⟩ := Prod.mk.inj now
      obtain ⟨rfl, rfl, -⟩ := Routine.member.inj same
      refine ⟨?_, own, _, _, _, _, _, _, rfl⟩
      unfold chainMember
      dsimp only
      rw [size_newTask, size_onSettled]
      rfl
    · cases (scripts _ script).1
  | spawned _ => cases (Prod.mk.inj (List.mem_singleton.mp made)).2
  | launched _ _ _ _ _ _ => cases (Prod.mk.inj (List.mem_singleton.mp made)).2
  | _ => cases made

theorem Move.chains (sound : w.Sound) (m : Move plan w w')
    (stood : w'.Stands c (.unstarted (.member run call body)) waiting) (new : w.futures.size ≤ c) :
    c + 1 = w'.futures.size ∧ call.completion = w.completions.size ∧
      ∃ t place position rest chains stack,
        w.focus = .enter t (.dispatch run place position (call.node.entry :: rest) chains) stack := by
  cases m.came sound stood with
  | stood there => exact absurd there.lt (Nat.not_lt.mpr new)
  | made _ maker =>
    obtain ⟨_, _, w₁, next, act, rfl, made⟩ | caller := maker
    · exact act.chains made
    · cases caller

theorem sameRuns_interrupted (i : Interrupted w w') : SameRuns w w' := by
  induction i with
  | refl w => exact .refl w
  | settled _ => exact settle_sameRuns
  | asked _ => exact repurpose_sameRuns _
  | told _ => exact repurpose_sameRuns _
  | trans _ _ first second => exact first.trans second

/-- A task that is told to wait, and does, waits for something that is pending. -/
theorem Move.halts (m : Move plan w w') (busy : w.focus = .enter t (.wait f) stack)
    (idle : w'.focus = .idle) : w.settlement? f = none := by
  have stays (focus : w'.focus = w.focus) : w.settlement? f = none := by
    cases (focus.symm.trans idle).symm.trans busy
  cases m with
  | stepped stepped =>
    rw [step, busy] at stepped
    obtain rfl := Option.some.inj stepped
    cases pending : w.settlement? f with
    | none => rfl
    | some s =>
      rw [enterRoutine, pending] at idle
      cases idle
  | called r _ => exact stays (newTask_sameRuns r).focus
  | observed _ => exact stays onSettled_sameRuns.focus
  | cancelled f => exact stays (focus_interrupted (cancel_interrupted f))
  | supplied _ | cleared | turned | opened _ _ _ _ | closed _ => exact stays rfl

/-- A move that is no step leaves it open what the task at work does and what is told. -/
theorem Move.outside (m : Move plan w w') : w.step plan = some w' ∨
    w'.focus = w.focus ∧ w'.notes = w.notes ∧ ∀ c, w'.first? c = w.first? c := by
  have kept (same : SameRuns w w') : w'.focus = w.focus ∧ w'.notes = w.notes ∧ ∀ c, w'.first? c = w.first? c :=
    ⟨same.focus, notes_congr same.journal, first?_of_map same.firsts⟩
  cases m with
  | stepped stepped => exact .inl stepped
  | called r _ => exact .inr (kept (newTask_sameRuns r))
  | observed _ => exact .inr (kept onSettled_sameRuns)
  | cancelled f => exact .inr (kept (sameRuns_interrupted (cancel_interrupted f)))
  | supplied _ | cleared | turned | opened _ _ _ _ | closed _ => exact .inr ⟨rfl, rfl, fun _ => rfl⟩

/-! ### Runs without anything to wait for -/

/-- Whether a run goes to no nested list but those in its root list. -/
structure Shallow (plan : Plan) (run : RunId) (w : World) : Prop where
  members : ∀ members, .nested members ∈ plan.tree.branches → ∀ e ∈ members, ∃ n : Node, e = n.entry
  taken : ∀ n ∈ plan.tree.nodes, ∀ r payload key inner, (run, .completed n.head r payload) ∈ w.notes →
    n.Selects r key inner → ∀ e ∈ inner, ∃ n : Node, e = n.entry

/-- Whether no action of a run has given back anything to wait for, none has failed, and the run is shallow. -/
structure Synchronous (plan : Plan) (run : RunId) (w : World) : Prop extends Shallow plan run w where
  unbegun : ∀ h body, (run, .began h body) ∉ w.notes
  unfailed : ∀ h e, (run, .failed h e) ∉ w.notes

theorem Shallow.of_subset (shallow : Shallow plan run w') (subset : w.notes ⊆ w'.notes) : Shallow plan run w where
  members := shallow.members
  taken n known r payload key inner completed := shallow.taken n known r payload key inner (subset completed)

theorem Synchronous.of_subset (synchronous : Synchronous plan run w') (subset : w.notes ⊆ w'.notes) :
    Synchronous plan run w where
  toShallow := synchronous.toShallow.of_subset subset
  unbegun h body began := synchronous.unbegun h body (subset began)
  unfailed h e failed := synchronous.unfailed h e (subset failed)

theorem Shallow.root (shallow : Shallow plan run w) (opened : Open plan w run place entries)
    (group : .nested members ∈ entries) : place = [] ∧ entries = plan.tree.branches := by
  have single {inner members : List Entry} (all : ∀ e ∈ inner, ∃ n : Node, e = n.entry)
      (group : .nested members ∈ inner) : False := by
    obtain ⟨n, other⟩ := all _ group
    cases other
  induction opened generalizing members with
  | root => exact ⟨rfl, rfl⟩
  | @nested place before outer rest inner k opened past found ih =>
    obtain ⟨-, root⟩ := @ih outer (by simp)
    obtain ⟨n, other⟩ := shallow.members outer (root ▸ by simp) _ (List.mem_of_getElem? found)
    cases other
  | @selected place before rest inner e n r payload declared opened past own completed selects ih =>
    have known : n ∈ plan.tree.nodes := Stood.mem ⟨place, before, rest, e, opened, past, own⟩
    exact (single (shallow.taken n known r payload declared inner completed selects) group).elim

/-- What the task of a node waits for is never a nested list, nor the whole run, when there is nothing to
wait for. -/
theorem Fits.below_node (fits : Fits plan aim w goal a stack) (own : goal = .entry run n.entry)
    (synchronous : Synchronous plan run w) (mine : ∀ other, Stacks other stack → other = run) :
    (∀ other inner, a ≠ .entry other (.nested inner)) ∧ ∀ other, a ≠ .whole other := by
  have loose {stack : List Frame} (fits : Fits plan aim w goal .loose stack)
      (mine : ∀ other, Stacks other stack → other = run) : False := by
    have aims : goal.run? = some run := by rw [own]; rfl
    obtain ⟨frames, other, call, rest, rfl, -, began⟩ := fits.inside_of_loose rfl aims
    obtain rfl := mine other ⟨.returning other call, by simp, rfl⟩
    exact synchronous.unbegun _ _ began
  have later {frame : Frame} {rest : List Frame} (mine : ∀ other, Stacks other (frame :: rest) → other = run)
      (other : RunId) (stacked : Stacks other rest) : other = run := mine other (stacks_cons.mpr (.inr stacked))
  induction fits with
  | base reaches =>
    subst own
    obtain rfl | other := reaches
    · exact ⟨fun _ _ => by simp [Node.entry], by simp⟩
    · cases other
  | played foreign rest _ => exact (loose rest (later mine)).elim
  | drive known rest ih => exact ((ih (later mine)).2 _ rfl).elim
  | @branches run' place before entries e a stack reached spans rest ih =>
    obtain rfl : run' = run := mine run' (stacks_cons.mpr (.inl rfl))
    cases spans with
    | whole => exact ((ih (later mine)).1 _ _ rfl).elim
    | @selected _ n' r declared _ selects =>
      refine ⟨fun other inner same => ?_, by simp⟩
      obtain ⟨rfl, rfl⟩ := Aim.entry.inj same
      generalize selected : Aim.branch run' n' r = a at rest
      have completes : ∃ payload, n' ∈ plan.tree.nodes ∧ (run', .completed n'.head r payload) ∈ w.notes := by
        cases rest with
        | base reaches =>
          subst own selected
          rcases reaches with other | other <;> cases other
        | played foreign rest => exact (loose (.played foreign rest) (later mine)).elim
        | @following _ call _ r' payload _ tended _ completed _ =>
          obtain ⟨rfl, rfl, rfl⟩ := Aim.branch.inj selected
          exact ⟨payload, tended.stood.mem, completed⟩
        | _ => cases selected
      obtain ⟨payload, known, completed⟩ := completes
      obtain ⟨n, other⟩ :=
        synchronous.taken n' known r payload declared _ completed selects (.nested inner) (by simp)
      cases other
  | _ => exact ⟨by simp, by simp⟩

/-! ### Standing in line -/

structure Chains (aim : FutureId → Aim) (w : World) (run : RunId) (n : Node) (c : FutureId) : Prop where
  own : aim c = .entry run n.entry
  task : w.kind? c = some .task

def Idles (w : World) (c : FutureId) : Prop := ∃ r waiting, w.Stands c (.unstarted r) waiting

inductive Asks (w : World) (run : RunId) (call : Call) (c : FutureId) : Prop where
  | due {body : Option FutureId} {waiting : Option FutureId}
      (stood : w.Stands c (.unstarted (.member run call body)) waiting)
  | begun {body : Option FutureId} {stack : List Frame} (here : w.focus = .enter c (.member run call body) stack)
  | waits {f : FutureId} {body : Option FutureId} {stack : List Frame}
      (here : w.focus = .enter c (.wait f) (.completing run call body :: stack))

/-- Whether members have reported whenever they are asked for that, so that nobody waits for one. -/
structure Forthcoming (w : World) (run : RunId) : Prop where
  asked : ∀ call c, w.Asks run call c → ∀ f, w.first? call.completion = some f →
    ∃ x, w.settlement? f = some (.value (.reported x)) ∧ call.node.canTake x
  unparked : ∀ t call body stack waiting, ¬ w.Stands t (.suspended (.completing run call body :: stack)) waiting

/-- Whether the chains of a run stand in line: each goes through to its end once it has begun, and no chain
has begun before all earlier ones have ended. -/
structure InLine (plan : Plan) (aim : FutureId → Aim) (run : RunId) (w : World) : Prop where
  through : ∀ n c, Chains aim w run n c → w.Idles c ∨ w.focus.task? = some c ∨ ∃ s, w.settlement? c = some s
  queued : ∀ n c n' c', Chains aim w run n c → Chains aim w run n' c' → c < c' → w.Idles c → w.Idles c' →
    ∃ before after, w.agenda.ready = before ++ .resume c :: after ∧ .resume c' ∉ before
  line : ∀ n c n' c', Chains aim w run n c → Chains aim w run n' c' → c < c' →
    w.Idles c' ∨ ∃ s, w.settlement? c = some s
  ahead : ∀ members (i j : Nat) (m n : Node) c', .nested members ∈ plan.tree.branches →
    members[i]? = some m.entry → members[j]? = some n.entry → i < j → Chains aim w run n c' →
      ∃ c < c', Chains aim w run m c
  called : ∀ members n args, .nested members ∈ plan.tree.branches → n.entry ∈ members →
    (run, .called n.head args) ∈ w.notes → ∃ c, Chains aim w run n c

theorem Chains.lt (chains : Chains aim w run n c) : c < w.futures.size := kind?_lt chains.task

theorem Chains.old (grown : Grown w w') (chains : Chains (aims aim w w') w' run n c) (old : c < w.futures.size) :
    Chains aim w run n c :=
  ⟨(aims_old old).symm.trans chains.own, grown.kind_of_lt old chains.task⟩

theorem Chains.later (grown : Grown w w') (chains : Chains aim w run n c) : Chains (aims aim w w') w' run n c :=
  ⟨(aims_old chains.lt).trans chains.own, grown.kinds c _ chains.task⟩

theorem Chains.idles (chains : Chains (aims aim w w') w' run n c) (new : w.futures.size ≤ c) : w'.Idles c := by
  have aimed := chains.own
  rw [World.aims, if_neg (Nat.not_lt.mpr new)] at aimed
  split at aimed
  case h_1 r waiting asked own => exact ⟨r, waiting, asked, own⟩
  case h_2 => cases aimed

theorem Ordered.member (ordered : Ordered plan aim w) (sound : w.Sound) (chains : Chains aim w run n c)
    (stood : w.Stands c (.unstarted r) waiting) : ∃ call body, r = .member run call body ∧ call.node = n := by
  have opens := ordered.unstarted c r waiting stood
  have begins := sound.tasks.begins c r waiting stood
  rw [chains.own] at opens
  generalize same : Aim.entry run n.entry = a at opens
  cases opens with
  | member tended report =>
    obtain ⟨rfl, own⟩ := Aim.entry.inj same
    exact ⟨_, _, rfl, entry_injective own.symm⟩
  | branches _ spans => cases spans <;> cases same
  | sequential _ => cases begins
  | dispatch _ _ => cases begins
  | _ => cases same

theorem Ordered.chains (ordered : Ordered plan aim w)
    (stood : w.Stands c (.unstarted (.member run call body)) waiting) : Chains aim w run call.node c := by
  have opens := ordered.unstarted c _ waiting stood
  obtain ⟨asked, own⟩ := stood
  refine ⟨?_, kind?_of_purpose? own⟩
  generalize aim c = a at opens
  cases opens with
  | played own => cases own
  | member _ _ => rfl

theorem Idles.before (sound : w.Sound) (m : Move plan w w') (idles : w'.Idles c) (old : c < w.futures.size) :
    w.Idles c := by
  obtain ⟨r, waiting, stood⟩ := idles
  cases m.came sound stood with
  | stood there => exact ⟨r, waiting, there⟩
  | made new _ => exact absurd old (Nat.not_lt.mpr new)

theorem Act.ne_member (act : Act plan w w.focus notes tasks w' next) :
    next ≠ .enter c (.member run call body) stack := by
  intro same
  have lost {run' : RunId} {h : Head} {e : Raised} {pre : List Note} {u : FutureId} {rest : List Frame}
      (lost : Lost run' h e pre u rest w notes w' next) : False := by
    obtain ⟨_, there⟩ := lost.leaves
    cases there.symm.trans same
  have finished {run' : RunId} {call' : Call} {body' : Option FutureId} {pre : List Note} {u : FutureId}
      {rest : List Frame} (finished : Finished plan run' call' body' pre u rest w notes w' next) : False := by
    cases finished with
    | lost gone => exact lost gone
    | moot _ _ => cases same
    | followed _ _ _ _ => cases same
  generalize w.focus = focus at act
  cases act with
  | played _ _ _ plays | replayed _ _ plays => cases plays.foreign same
  | sequenced _ _ done | returned done | completed done => exact finished done
  | undispatched _ gone | unasked gone | unreturned gone | uncompleted gone => exact lost gone
  | _ => cases same

theorem Ordered.completing (ordered : Ordered plan aim w)
    (here : w.focus = .enter c (.wait f) (.completing run call body :: stack)) :
    w.first? call.completion = some f := by
  obtain ⟨a, opens, fits⟩ := ordered.entered here
  cases fits with
  | played own _ => cases own
  | completing _ report _ =>
    cases opens with
    | wait _ => exact report

theorem Ordered.report (ordered : Ordered plan aim w) (asks : w.Asks run call c) :
    ∃ f, w.first? call.completion = some f := by
  cases asks with
  | due stood =>
    have opens := ordered.unstarted _ _ _ stood
    generalize aim c = a at opens
    cases opens with
    | played own => cases own
    | member _ report => exact ⟨_, report⟩
  | begun here =>
    obtain ⟨a, opens, -⟩ := ordered.entered here
    cases opens with
    | played own => cases own
    | member _ report => exact ⟨_, report⟩
  | waits here => exact ⟨_, ordered.completing here⟩

/-- Whoever asks for the report of a member has done so before, or its group has just called it. -/
theorem Asks.before (sound : w.Sound) (roles : w'.Roles) (ordered : Ordered plan aim w') (m : Move plan w w')
    (asks : w'.Asks run call c) : w.Asks run call c ∨ call.completion = w.completions.size ∧
      ∃ t place position rest chains stack,
        w.focus = .enter t (.dispatch run place position (call.node.entry :: rest) chains) stack := by
  cases asks with
  | due stood =>
    cases m.came sound stood with
    | stood there => exact .inl (.due there)
    | made new _ => exact .inr (m.chains sound stood new).2
  | begun here =>
    obtain ⟨_, _, _, act, -⟩ | old | ⟨_, -, stood⟩ := m.entered sound here
    · exact absurd rfl act.ne_member
    · exact .inl (.begun old)
    · exact .inl (.due stood)
  | waits here =>
    have report := roles.firsts _ _ (ordered.completing here)
    obtain ⟨_, _, _, act, rfl⟩ | old | ⟨_, none, -⟩ := m.entered sound here
    · cases act.waitsFor with
      | timed own => cases own.symm.trans report
      | report before _ => exact .inl (.begun before)
    · exact .inl (.waits old)
    · cases none

/-- The chain of a node that is told to wait waits for a report that is there, when there is nothing to wait
for. -/
theorem Ordered.hastens (ordered : Ordered plan aim w) (loyal : Loyal aim w) (synchronous : Synchronous plan run w)
    (chains : Chains aim w run n c) (busy : w.focus = .enter c r stack)
    (forthcoming : w.Forthcoming run) (halts : (∃ f, r = .wait f) ∨ r = .yield) :
    ∃ f s, r = .wait f ∧ w.settlement? f = some s := by
  obtain ⟨a, opens, fits⟩ := ordered.entered busy
  have mine (other : RunId) (stacked : Stacks other stack) : other = run := by
    have own := loyal.focus c other (by rw [busy]; rfl) (by rw [busy]; exact .inr stacked)
    rw [chains.own] at own
    exact (Option.some.inj own).symm
  rw [chains.own] at fits
  have loose (fits : Fits plan aim w (.entry run n.entry) .loose stack) : False := by
    obtain ⟨frames, other, call, rest, rfl, -, began⟩ := fits.inside_of_loose rfl rfl
    obtain rfl := mine other ⟨.returning other call, by simp, rfl⟩
    exact synchronous.unbegun _ _ began
  have success : ∃ f, r = .wait f ∧ a = .success f := by
    rcases halts with ⟨f, rfl⟩ | rfl
    · cases opens with
      | played _ => exact (loose fits).elim
      | wait _ => exact ⟨f, rfl, rfl⟩
    · cases opens with
      | played _ => exact (loose fits).elim
  obtain ⟨f, rfl, rfl⟩ := success
  refine ⟨f, ?_⟩
  generalize reached : Aim.success f = a at fits
  cases fits with
  | base reaches => subst reached; rcases reaches with other | other <;> cases other
  | played own rest => exact (loose (.played own rest)).elim
  | @outside other call f' stack called stood begun none only old unawaited rest =>
    obtain rfl := mine other (stacks_cons.mpr (.inl rfl))
    exact (synchronous.unbegun _ _ begun).elim
  | @joining other g members cs stack joint chained rest =>
    have below := rest.below_node rfl synchronous fun other stacked => mine other (stacks_cons.mpr (.inr stacked))
    exact (below.1 _ _ rfl).elim
  | @completing other call body f' stack tended report rest =>
    obtain rfl := Aim.success.inj reached
    obtain rfl := mine other (stacks_cons.mpr (.inl rfl))
    obtain ⟨x, settled, -⟩ := forthcoming.asked call c (.waits busy) f report
    exact ⟨_, rfl, settled⟩
  | @ending other call b g r payload stack waiter tended reported completed followed routed rest =>
    obtain rfl := mine other (stacks_cons.mpr (.inl rfl))
    exact (synchronous.unbegun _ _ (tended.began b rfl)).elim
  | _ => cases reached

theorem Forthcoming.move (forthcoming : w.Forthcoming run) (runs : Runs plan run w) (m : Move plan w w')
    (ordered : Ordered plan aim w) (loyal : Loyal aim w) (ordered' : Ordered plan (aims aim w w') w')
    (dutiful : w.step plan = some w' → isDutiful plan run w w') : w'.Forthcoming run where
  asked call c asks f report := by
    have sound := runs.reachable.sound
    have grown := m.grown sound.steady
    have roles := (runs.reachable.move m).sound.roles
    rcases asks.before sound roles ordered' m with old | ⟨own, t, _, _, _, _, _, here⟩
    · obtain ⟨f', report'⟩ := ordered.report old
      obtain rfl := Option.some.inj ((grown.firsts _ _ report').symm.trans report)
      obtain ⟨x, settled, takes⟩ := forthcoming.asked call c old f' report'
      exact ⟨x, grown.settlements f' _ settled, takes⟩
    · rw [own] at report
      rcases m.outside with stepped | ⟨-, -, firsts⟩
      · exact reported_of_isDutiful (dutiful stepped) here report
      · -- only a step makes a descriptor
        rw [firsts, first?, completion?, Array.getElem?_eq_none (Nat.le_refl _)] at report
        cases report
  unparked t call body stack waiting stood := by
    cases m.came runs.reachable.sound stood with
    | stood there => exact forthcoming.unparked t call body stack waiting there
    | halted busy halts idle _ =>
      obtain ⟨f, rfl, -⟩ | ⟨rfl, -⟩ := halts
      · obtain ⟨x, settled, -⟩ := forthcoming.asked call t (.waits busy) f (ordered.completing busy)
        cases settled.symm.trans (m.halts busy idle)
      · -- nobody makes way for others on behalf of a member
        obtain ⟨a, opens, fits⟩ := ordered.entered busy
        have concerns : w.focus.Concerns run := by
          rw [busy]
          exact .inr ⟨_, List.mem_cons_self, rfl⟩
        have own := loyal.focus t run (by rw [busy]; rfl) concerns
        cases opens with
        | played _ =>
          obtain ⟨frames, other, call', rest, top, foreign, -⟩ := fits.inside_of_loose rfl own
          cases frames with
          | nil => cases (List.cons.inj top).1
          | cons frame frames =>
            obtain ⟨rfl, -⟩ := List.cons.inj top
            cases foreign _ List.mem_cons_self

theorem Launch.forthcoming (launch : Launch run w w') (sound : w'.Sound) (loyal : Loyal aim w') :
    w'.Forthcoming run where
  asked call c asks := by
    have working (busy : w'.focus.task? = some c) (concerns : w'.focus.Concerns run) : False := by
      cases launch.begins loyal (loyal.focus c run busy concerns) (sound.tasks.focus c busy).2
    cases asks with
    | due stood => cases launch.begins loyal (loyal.stands c _ _ run stood rfl) stood
    | begun here => exact (working (by rw [here]; rfl) (by rw [here]; exact .inl rfl)).elim
    | waits here => exact (working (by rw [here]; rfl) (by rw [here]; exact .inr ⟨_, List.mem_cons_self, rfl⟩)).elim
  unparked t call body stack waiting stood := by
    cases launch.begins loyal (loyal.stands t _ _ run stood ⟨_, List.mem_cons_self, rfl⟩) stood

theorem Runs.waits_in_line (runs : Runs plan run w) (loyal : Loyal aim w) (chains : Chains aim w run n c)
    (idles : w.Idles c) : w.settlement? c = none ∧ .resume c ∈ w.agenda.ready := by
  obtain ⟨r, waiting, stood⟩ := idles
  have pending := runs.reachable.pending stood (by simp)
  obtain rfl := runs.reachable.wakes.unstarted c r waiting stood
  obtain ⟨o, outcome, later⟩ := loyal.known c run (by rw [chains.own]; rfl)
  exact ⟨pending, runs.queued ⟨o, outcome, later, stood.lt⟩ ⟨_, stood, by simp, pending⟩⟩

theorem Chained.of_member {chains : List FutureId} (chained : Chained aim w run members chains)
    (member : e ∈ members) : ∃ c ∈ chains, aim c = .entry run e ∧ w.kind? c = some .task := by
  unfold Chained at chained
  induction chained with
  | nil => cases member
  | cons first _ ih =>
    rcases List.mem_cons.mp member with rfl | later
    · exact ⟨_, List.mem_cons_self, first⟩
    · obtain ⟨c, there, own⟩ := ih later
      exact ⟨c, List.mem_cons_of_mem _ there, own⟩

namespace InLine

variable (line : InLine plan aim run w) (runs : Runs plan run w) (m : Move plan w w')
include line runs m

theorem through_move (ordered : Ordered plan aim w) (loyal : Loyal aim w) (synchronous : Synchronous plan run w)
    (forthcoming : w.Forthcoming run) (chains : Chains (aims aim w w') w' run n c) :
    w'.Idles c ∨ w'.focus.task? = some c ∨ ∃ s, w'.settlement? c = some s := by
  have sound := runs.reachable.sound
  have grown := m.grown sound.steady
  by_cases new : w.futures.size ≤ c
  · exact .inl (chains.idles new)
  have before := chains.old grown (Nat.lt_of_not_le new)
  rcases line.through n c before with ⟨r, waiting, stood⟩ | busy | ⟨s, settled⟩
  · rcases m.rests sound stood (by simp) with still | ⟨o, goesOn, -⟩
    · exact .inl ⟨r, waiting, still⟩
    · refine .inr (.inl ?_)
      obtain ⟨_, -, ⟨_, -, focus⟩ | ⟨_, -, focus⟩⟩ | ⟨_, -, focus⟩ := goesOn <;> rw [focus] <;> rfl
  · cases m.turn sound with
    | acted act rests => exact .inr (.inl (act.task.2.trans busy))
    | @halted _ u r stack waiting here halts shifts same idle asked queued =>
      -- whatever a chain is to wait for is there
      obtain rfl : u = c := Option.some.inj ((congrArg Focus.task? here).symm.trans busy)
      obtain ⟨f, s, rfl, settled⟩ := ordered.hastens loyal synchronous before here forthcoming
        (halts.imp (fun ⟨f, own, _⟩ => ⟨f, own⟩) And.left)
      cases settled.symm.trans (m.halts here idle)
    | @ended _ u o here shifts value idle delivers =>
      obtain rfl : u = c := Option.some.inj ((congrArg Focus.task? here).symm.trans busy)
      obtain ⟨s, settled, -⟩ := delivers
      exact .inr (.inr ⟨s, settled⟩)
    | resumed idle _ _ _ _ _ _ _ => cases busy.symm.trans (congrArg Focus.task? idle)
    | begun r caller => exact .inr (.inl ((congrArg Focus.task? (newTask_sameRuns r).focus).trans busy))
    | rested rests focus => exact .inr (.inl ((congrArg Focus.task? focus).trans busy))
  · exact .inr (.inr ⟨s, grown.settlements c s settled⟩)

/-- Who has not begun stays in the queue, behind whom it stood behind, unless it goes on. -/
theorem queued_move (loyal : Loyal aim w) (undisturbed : Undisturbed plan run w w')
    (ordered' : Ordered plan (aims aim w w') w') (chains : Chains (aims aim w w') w' run n c)
    (chains' : Chains (aims aim w w') w' run n' c') (less : c < c') (idles : w'.Idles c) (idles' : w'.Idles c') :
    ∃ before after, w'.agenda.ready = before ++ .resume c :: after ∧ .resume c' ∉ before := by
  have sound := runs.reachable.sound
  have grown := m.grown sound.steady
  by_cases new : w.futures.size ≤ c
  · -- of two chains that are new one would not be the last task that was made
    have sound' := (runs.reachable.move m).sound
    obtain ⟨r, waiting, stood⟩ := idles
    obtain ⟨call, body, rfl, -⟩ := ordered'.member sound' chains stood
    obtain ⟨r', waiting', stood'⟩ := idles'
    obtain ⟨call', body', rfl, -⟩ := ordered'.member sound' chains' stood'
    have last := (m.chains sound stood new).1
    have last' := (m.chains sound stood' (Nat.le_of_lt (Nat.lt_of_le_of_lt new less))).1
    exact absurd (Nat.succ.inj (last'.trans last.symm)) (Nat.ne_of_gt less)
  have old := Nat.lt_of_not_le new
  have before := chains.old grown old
  have idle := idles.before sound m old
  obtain ⟨pending, there⟩ := runs.waits_in_line loyal before idle
  have stays {w₁ : World} (next : w.nextJob? = some (.resume c, w₁))
      (ran : w' = w₁.runJob plan (.resume c)) : False := by
    obtain ⟨r, waiting, stood⟩ := idles
    subst ran
    cases (stood.unique (runJob_activates sound next (by simp [Job.signals]) pending)).1
  by_cases new' : w.futures.size ≤ c'
  · obtain ⟨l, here, within, more⟩ : ∃ l, .resume c ∈ l ∧ l ⊆ w.agenda.ready ∧ l <+: w'.agenda.ready := by
      rcases m.queue sound undisturbed.loop with more | ⟨j, w₁, -, next, ran, front, more⟩
      · exact ⟨_, there, fun _ => id, more⟩
      · rw [front] at there ⊢
        rcases List.mem_cons.mp there with rfl | later
        · exact (stays next ran).elim
        · exact ⟨_, later, List.subset_cons_self _ _, more⟩
    obtain ⟨front, after, rfl⟩ := List.append_of_mem here
    obtain ⟨extra, same⟩ := more
    refine ⟨front, after ++ extra, by simp [← same], fun earlier => ?_⟩
    have expected := sound.tasks.expects _ (mem_jobs_of_ready (within (List.mem_append_left _ earlier))) c'
      (by simp [Job.signals])
    obtain ⟨p, waiting, -, stood⟩ := expected.stands
    exact Nat.not_lt.mpr new' stood.lt
  · have before' := chains'.old grown (Nat.lt_of_not_le new')
    obtain ⟨front, after, ready, first⟩ :=
      line.queued n c n' c' before before' less idle (idles'.before sound m (Nat.lt_of_not_le new'))
    rcases m.queue sound undisturbed.loop with ⟨extra, same⟩ | ⟨j, w₁, -, next, ran, head, extra, same⟩
    · exact ⟨front, after ++ extra, by simp [← same, ready], first⟩
    · rw [head] at ready
      cases front with
      | nil =>
        obtain ⟨rfl, -⟩ := List.cons.inj ready
        exact (stays next ran).elim
      | cons k front =>
        obtain ⟨-, rest⟩ := List.cons.inj ready
        exact ⟨front, after ++ extra, by simp [← same, rest], fun later => first (List.mem_cons_of_mem _ later)⟩

theorem line_move (ordered : Ordered plan aim w) (loyal : Loyal aim w) (synchronous : Synchronous plan run w)
    (forthcoming : w.Forthcoming run) (undisturbed : Undisturbed plan run w w')
    (chains : Chains (aims aim w w') w' run n c) (chains' : Chains (aims aim w w') w' run n' c') (less : c < c') :
    w'.Idles c' ∨ ∃ s, w'.settlement? c = some s := by
  have sound := runs.reachable.sound
  have reached' := runs.reachable.move m
  have grown := m.grown sound.steady
  by_cases still : w'.Idles c'
  · exact .inl still
  by_cases new' : w.futures.size ≤ c'
  · exact absurd (chains'.idles new') still
  have before' := chains'.old grown (Nat.lt_of_not_le new')
  have before := chains.old grown (Nat.lt_trans less (Nat.lt_of_not_le new'))
  refine .inr ?_
  rcases line.line n c n' c' before before' less with idles' | ⟨s, settled⟩
  · obtain ⟨pending', there'⟩ := runs.waits_in_line loyal before' idles'
    have gone : .resume c' ∉ w'.agenda.ready := by
      intro there
      have expected := reached'.sound.tasks.expects _ (mem_jobs_of_ready there) c' (by simp [Job.signals])
      obtain ⟨r, stood⟩ | ⟨stack, stood⟩ := expected
      · exact still ⟨r, none, stood⟩
      · rcases line.through_move runs m ordered loyal synchronous forthcoming chains' with
          idles | busy | ⟨s, settled⟩
        · exact still idles
        · cases (stood.unique (reached'.sound.tasks.focus c' busy).2).1
        · cases settled.symm.trans (reached'.pending stood (by simp))
    -- so the job of the later chain has been run, and was the first one of the queue
    obtain ⟨w₁, idle, head⟩ : ∃ w₁ : World, w.focus = .idle ∧
        w.agenda.ready = .resume c' :: w₁.agenda.ready := by
      rcases m.queue sound undisturbed.loop with more | ⟨j, w₁, idle, next, ran, head, more⟩
      · exact absurd (more.subset there') gone
      · rw [head] at there'
        rcases List.mem_cons.mp there' with rfl | later
        · exact ⟨w₁, idle, head⟩
        · exact absurd (more.subset later) gone
    rcases line.through n c before with idles | busy | ⟨s, settled⟩
    · obtain ⟨front, after, ready, first⟩ := line.queued n c n' c' before before' less idles idles'
      rw [head] at ready
      cases front with
      | nil =>
        obtain ⟨same, -⟩ := List.cons.inj ready
        exact absurd (Job.resume.inj same) (Nat.ne_of_gt less)
      | cons k front =>
        obtain ⟨rfl, -⟩ := List.cons.inj ready
        exact absurd List.mem_cons_self first
    · cases busy.symm.trans (congrArg Focus.task? idle)
    · exact ⟨s, grown.settlements c s settled⟩
  · exact ⟨s, grown.settlements c s settled⟩

theorem ahead_move (compiled : plan.tree.Compiled) (ordered : Ordered plan aim w)
    (ordered' : Ordered plan (aims aim w w') w') (shallow : Shallow plan run w)
    (group : .nested members ∈ plan.tree.branches) (first : members[i]? = some n'.entry)
    (second : members[j]? = some n.entry) (less : i < j) (chains : Chains (aims aim w w') w' run n c') :
    ∃ c < c', Chains (aims aim w w') w' run n' c := by
  have sound := runs.reachable.sound
  have grown := m.grown sound.steady
  by_cases new : w.futures.size ≤ c'
  · obtain ⟨r, waiting, stood⟩ := chains.idles new
    obtain ⟨call, body, rfl, rfl⟩ := ordered'.member (runs.reachable.move m).sound chains stood
    obtain ⟨-, -, t, place, position, rest, cs, stack, here⟩ := m.chains sound stood new
    obtain ⟨a, opens, -⟩ := ordered.entered here
    cases opens with
    | played own => cases own
    | @dispatch _ place before after done _ _ reached chained =>
      -- the group is the one in the root list that has the member, which it has there only
      have within : Entry.nested (done ++ call.node.entry :: rest) ∈
          before ++ .nested (done ++ call.node.entry :: rest) :: after := by simp
      obtain ⟨rfl, root⟩ := shallow.root reached.list within
      obtain ⟨k, found⟩ := List.getElem?_of_mem group
      have there : plan.tree.branches[before.length]? = some (.nested (done ++ call.node.entry :: rest)) := by
        simp [← root]
      have path := compiled.grouped [] _ _ k j _ .root found second
      have path' := compiled.grouped [] _ _ before.length done.length call.node .root there (by simp)
      obtain ⟨rfl, rfl⟩ : k = before.length ∧ j = done.length := by simpa using path.symm.trans path'
      obtain rfl := Entry.nested.inj (Option.some.inj (found.symm.trans there))
      rw [List.getElem?_append_left less] at first
      obtain ⟨c, -, own, task⟩ := chained.of_member (List.mem_of_getElem? first)
      exact ⟨c, Nat.lt_of_lt_of_le (kind?_lt task) new, (Chains.mk own task).later grown⟩
  · obtain ⟨c, earlier, chains⟩ := line.ahead members i j n' n c' group first second less
      (chains.old grown (Nat.lt_of_not_le new))
    exact ⟨c, earlier, chains.later grown⟩

theorem called_move (compiled : plan.tree.Compiled) (ordered : Ordered plan aim w)
    (ordered' : Ordered plan (aims aim w w') w') (synchronous : Synchronous plan run w') {args : Entries}
    (group : .nested members ∈ plan.tree.branches) (member : n.entry ∈ members)
    (called : (run, .called n.head args) ∈ w'.notes) : ∃ c, Chains (aims aim w w') w' run n c := by
  have sound := runs.reachable.sound
  have grown := m.grown sound.steady
  obtain ⟨notes, noting⟩ := m.noting sound
  rw [noting.noted] at called
  rcases List.mem_append.mp called with now | before
  · obtain ⟨k, found⟩ := List.getElem?_of_mem group
    obtain ⟨j, here⟩ := List.getElem?_of_mem member
    have known : n ∈ plan.tree.nodes := by
      have placed : plan.tree.Places n := ⟨[], _, k, .root, .inr ⟨members, j, found, here⟩⟩
      exact placed.sublist.subset List.mem_cons_self
    have path := compiled.grouped [] _ _ k j n .root found here
    generalize same : n.head = h at now
    cases noting.happens now with
    | called n₁ args fresh calls =>
      have stood := Calls.stood ordered calls
      obtain rfl := compiled.eq_of_head known stood.mem same
      have focused := ordered.focus
      cases noting with
      | quiet _ => cases now
      | told idle _ _ _ =>
        rw [idle] at calls
        cases calls
      | acted act =>
        generalize busy : w.focus = focus at calls focused
        cases calls with
        | sequential =>
          -- a node of a list is no member of a group
          obtain ⟨a, opens, -⟩ := focused
          cases opens with
          | played own => cases own
          | @sequential _ place before rest _ reached =>
            have branch := reached.list.branchAt
            have path' := compiled.single _ _ before.length n branch (by simp)
            have depth := congrArg Path.isSequence (path'.symm.trans path)
            rw [isSequence_append, branch.isSequence] at depth
            cases depth
        | dispatch =>
          rcases act.dispatched busy with ⟨e, _, lost, -⟩ | ⟨call, body, c, rfl, -, -, stood⟩
          · exact (synchronous.unfailed _ _ lost.noted).elim
          · exact ⟨c, ordered'.chains stood⟩
  · obtain ⟨c, chains⟩ := line.called members n args group member before
    exact ⟨c, chains.later grown⟩

theorem move (compiled : plan.tree.Compiled) (ordered : Ordered plan aim w)
    (ordered' : Ordered plan (aims aim w w') w') (loyal : Loyal aim w) (undisturbed : Undisturbed plan run w w')
    (forthcoming : w.Forthcoming run) (synchronous : Synchronous plan run w') : InLine plan (aims aim w w') run w' := by
  have before := synchronous.of_subset (m.grown runs.reachable.sound.steady).subset_notes
  exact {
    through := fun _ _ => line.through_move runs m ordered loyal before forthcoming
    queued := fun _ _ _ _ => line.queued_move runs m loyal undisturbed ordered'
    line := fun _ _ _ _ => line.line_move runs m ordered loyal before forthcoming undisturbed
    ahead := fun _ _ _ _ _ _ group first second less =>
      line.ahead_move runs m compiled ordered ordered' before.toShallow group first second less
    called := fun _ _ _ group member => line.called_move runs m compiled ordered ordered' synchronous group member }

end InLine

theorem Launch.inLine (launch : Launch run w w') (before : Reachable plan w) (new : w.record? run = none)
    (ordered : Ordered plan aim w') (loyal : Loyal aim w') : InLine plan aim run w' := by
  have none (n : Node) (c : FutureId) : ¬ Chains aim w' run n c := by
    intro chains
    obtain rfl := launch.only loyal (by rw [chains.own]; rfl) chains.lt
    have opens := ordered.unstarted _ _ _ ⟨_, launch.driver⟩
    rw [chains.own] at opens
    cases opens
  refine ⟨fun n c chains => (none n c chains).elim, fun n c _ _ chains => (none n c chains).elim,
    fun n c _ _ chains => (none n c chains).elim, fun _ _ _ _ n c _ _ _ _ chains => (none n c chains).elim,
    fun _ n args _ _ called => ?_⟩
  rw [launch.noted] at called
  cases new ▸ before.known called

end Conductor.World
