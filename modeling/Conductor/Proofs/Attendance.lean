import Conductor.Proofs.Sturdy

/-!
# Members and their reports

The chain of a member waits for what the member reports, and goes on with it as soon as that is there. So
when nothing is left to do, a member whose descriptor has been settled has completed or failed, unless its
run has settled.
-/

namespace Conductor.World

variable {plan : Plan} {w w' : World} {run : RunId} {t f : FutureId} {stack : List Frame} {frame : Frame}
  {s : Settlement} {notes : List Note} {tasks : List (FutureId × Routine)} {next : Focus} {call : Call}
  {c : FutureId} {n : Node} {e : Raised}

/-! ### Waiting and being told -/

inductive Heeds (w : World) (t f : FutureId) (stack : List Frame) : Prop where
  | waiting (waits : w.Waiting t f stack)
  | told {o : Outcome} {s : Settlement} (here : w.focus = .leave t o stack) (settled : w.settlement? f = some s)
      (delivers : Delivers o s)

def Uncancelled (w : World) (run : RunId) : Prop :=
  ∀ t p waiting asked, w.Serves run t → w.purpose? t = some (.task p waiting asked) → asked = false

theorem Runs.calm (runs : Runs plan run w) (compiled : plan.tree.Compiled) : w.Uncancelled run :=
  let ⟨_, _, _, sturdy, _⟩ := runs.sturdy compiled
  sturdy.calm

/-- Whatever move the machine makes, a task of a run goes on to heed what it waits for until it acts on
that. -/
theorem Heeds.move (heeds : w.Heeds t f (frame :: stack)) (sound : w.Sound) (uncancelled : w.Uncancelled run)
    (own : frame.run? = some run) (m : Move plan w w') :
    w'.Heeds t f (frame :: stack) ∨ ∃ o s notes tasks w₁ next, w.focus = .leave t o (frame :: stack) ∧
      w.settlement? f = some s ∧ Delivers o s ∧ Act plan w w.focus notes tasks w₁ next ∧ w' = w₁.focusOn next := by
  have grown := m.grown sound.steady
  cases m.turn sound with
  | @acted notes tasks w₁ next act rests =>
    cases heeds with
    | waiting waits =>
      refine .inl ?_
      rcases waits with here | stood
      · rw [here] at act
        cases act with
        | played _ other _ _ => exact absurd rfl (other f)
        | launched _ other _ _ _ _ => exact absurd rfl (other f)
        | @delivered _ _ _ s settled =>
          exact .told rfl (grown.settlements f s settled)
            (deliver_delivers (sound.proper.settlements f s settled))
      · exact .waiting (.inr (rests.kept t _ _ stood))
    | told here settled delivers => exact .inr ⟨_, _, _, _, _, _, here, settled, delivers, act, rfl⟩
  | @halted _ u r stack' waiting busy halts shifts same idle asked queued =>
    refine .inl ?_
    cases heeds with
    | waiting waits =>
      rcases waits with here | stood
      · obtain ⟨rfl, rfl, rfl⟩ := Focus.enter.inj (busy.symm.trans here)
        obtain ⟨g, same, rfl⟩ | ⟨other, -⟩ := halts
        · obtain rfl := Routine.wait.inj same
          exact .waiting (.inr shifts.own)
        · cases other
      · have other := sound.tasks.elsewhere stood (by simp) (u := u) (by rw [busy]; rfl)
        exact .waiting (.inr ((shifts.others t _ _ other).mpr stood))
    | told here _ _ => cases busy.symm.trans here
  | @ended _ u o busy shifts value idle delivers =>
    refine .inl ?_
    cases heeds with
    | waiting waits =>
      rcases waits with here | stood
      · cases busy.symm.trans here
      · have other := sound.tasks.elsewhere stood (by simp) (u := u) (by rw [busy]; rfl)
        exact .waiting (.inr ((shifts.others t _ _ other).mpr stood))
    | told here _ _ => cases busy.symm.trans here
  | @resumed _ u p waiting o idle stood shifts same heard goesOn told clear =>
    refine .inl ?_
    cases heeds with
    | waiting waits =>
      rcases waits with here | standing
      · cases idle.symm.trans here
      · by_cases mine : t = u
        · subst mine
          obtain ⟨rfl, rfl⟩ := standing.unique stood
          obtain ⟨asked, purpose⟩ := stood
          obtain rfl := uncancelled t _ _ asked (.inl ⟨_, _, standing, frame, List.mem_cons_self, own⟩) purpose
          obtain ⟨s, settled, delivers⟩ := told purpose
          obtain ⟨r, other, -⟩ | ⟨stack', standing', focus⟩ := goesOn
          · cases other
          · obtain rfl := Position.suspended.inj standing'
            exact .told focus ((same f).trans settled) delivers
        · exact .waiting (.inr ((shifts.others t _ _ mine).mpr standing))
    | told here _ _ => cases idle.symm.trans here
  | begun r caller =>
    refine .inl ?_
    cases heeds with
    | waiting waits => exact .waiting (waits.imp (newTask_sameRuns r).focus.trans ((Rests.newTask r).kept t _ _))
    | told here settled delivers =>
      exact .told ((newTask_sameRuns r).focus.trans here) (grown.settlements f _ settled) delivers
  | rested rests focus =>
    refine .inl ?_
    cases heeds with
    | waiting waits => exact .waiting (waits.imp (fun here => focus.trans here) (rests.kept t _ _))
    | told here settled delivers => exact .told (focus.trans here) (grown.settlements f _ settled) delivers

/-! ### Members -/

/-- How far the chain of a member has got with the report of the member. -/
inductive Attended (w : World) (run : RunId) (call : Call) (c : FutureId) : Prop where
  | due {body : Option FutureId} (stood : w.Stands c (.unstarted (.member run call body)) none)
  | begun {body : Option FutureId} (here : w.focus = .enter c (.member run call body) [])
  | heeds {body : Option FutureId} {f : FutureId} (report : w.first? call.completion = some f)
      (heeds : w.Heeds c f [.completing run call body])
  /-- The member has completed with what it has reported. -/
  | completed {f : FutureId} {v : Yield} {r : Result} {payload : Entries}
      (report : w.first? call.completion = some f) (settled : w.settlement? f = some (.value v))
      (result : v.report = .result r) (noted : (run, .completed call.node.head r payload) ∈ w.notes)
  /-- The member has failed: with what its descriptor was failed with, if it was, or in an ordinary way. -/
  | failed {e : Raised} (noted : (run, .failed call.node.head e) ∈ w.notes)
      (why : e.fault.nature = .ordinary ∨ ∃ f s, w.first? call.completion = some f ∧ w.settlement? f = some s ∧
        ∀ x, s = .failed x → e = x)
  /-- The member has reported when its run had settled. -/
  | moot {f : FutureId} {v : Yield} (report : w.first? call.completion = some f)
      (settled : w.settlement? f = some (.value v)) (past : w.isSettled run)

theorem Lost.failed {h : Head} {pre : List Note} (lost : Lost run h e pre t stack w notes w' next) :
    (run, .failed h e) ∈ notes := by
  cases lost with
  | mk _ _ => exact List.mem_append_right _ List.mem_cons_self

theorem Lost.noted {h : Head} {pre : List Note} (lost : Lost run h e pre t stack w notes w' next) :
    (run, .failed h e) ∈ w'.notes := by
  rw [lost.effect.noted]
  exact List.mem_append_left _ lost.failed

/-- A chain that has been told of the report of its member completes the member or fails it. -/
theorem Act.attended {body : Option FutureId} {o : Outcome} (act : Act plan w w.focus notes tasks w' next)
    (here : w.focus = .leave c o [.completing run call body]) (report : w.first? call.completion = some f)
    (settled : w.settlement? f = some s) (delivers : Delivers o s) : (w'.focusOn next).Attended run call c := by
  have grown := Grown.effect act.effect
  have noted := act.effect.noted
  have report' := grown.firsts _ _ report
  have settled' := grown.settlements _ _ settled
  have fails {e : Raised} {next' : Focus} (lost : Lost run call.node.head e [] c [] w notes w' next')
      (same : ∀ x, s = .failed x → e = x) : (w'.focusOn next).Attended run call c := by
    have member : (run, .failed call.node.head e) ∈ w'.notes := by
      rw [noted]
      exact List.mem_append_left _ lost.failed
    exact .failed member (.inr ⟨f, s, report', settled', same⟩)
  rw [here] at act
  cases act with
  | replayed own _ _ => cases own
  | @completed _ _ v _ _ _ _ _ _ finished result =>
    have value := delivers.value rfl
    subst value
    cases finished with
    | lost lost => exact fails lost fun x other => by cases other
    | moot _ past => exact .moot report' settled' past
    | @followed _ _ r payload _ _ _ _ =>
      have member : (run, .completed call.node.head r payload) ∈ w'.notes := by
        rw [noted]
        exact List.mem_cons_self
      exact .completed report' settled' (result r payload List.mem_cons_self) member
  | uncompleted lost =>
    refine fails lost fun x same => ?_
    subst same
    exact Except.error.inj delivers

/-- A member that has been given a chain fails or completes as the chain goes on. -/
theorem Attended.move (attended : w.Attended run call c) (reached : Reachable plan w)
    (compiled : plan.tree.Compiled) (uncancelled : w.Uncancelled run) (m : Move plan w w') :
    w'.Attended run call c := by
  have sound := reached.sound
  have grown := m.grown sound.steady
  have heeding {body : Option FutureId} {f : FutureId} (report : w.first? call.completion = some f)
      (heeds : w.Heeds c f [.completing run call body]) : w'.Attended run call c := by
    rcases heeds.move sound uncancelled rfl m with heeds | ⟨o, s, _, _, w₁, next, here, settled, delivers, act, rfl⟩
    · exact .heeds (grown.firsts _ _ report) heeds
    · exact act.attended here report settled delivers
  cases attended with
  | completed report settled result noted =>
    exact .completed (grown.firsts _ _ report) (grown.settlements _ _ settled) result (grown.subset_notes noted)
  | failed noted why =>
    exact .failed (grown.subset_notes noted) (why.imp id fun ⟨f, s, report, settled, same⟩ =>
      ⟨f, s, grown.firsts _ _ report, grown.settlements _ _ settled, same⟩)
  | moot report settled past =>
    exact .moot (grown.firsts _ _ report) (grown.settlements _ _ settled) (m.settled sound.steady past)
  | heeds report heeds => exact heeding report heeds
  | @begun body here =>
    cases m.turn sound with
    | @acted notes tasks w₁ next act rests =>
      have noted := act.effect.noted
      have dated := (reached.dated compiled).focus
      rw [here] at dated
      obtain ⟨f, report, -⟩ := (dated.1 run rfl).report call rfl
      rw [here] at act
      cases act with
      | played own _ _ _ => cases own
      | launched own _ _ _ _ _ => cases own
      | asked report => exact .heeds report (.waiting (.inl rfl))
      | absent other => cases other.symm.trans report
      | @unasked _ _ _ _ _ e _ _ _ lost ordinary =>
        have member : (run, .failed call.node.head e) ∈ w₁.notes := by
          rw [noted]
          exact List.mem_append_left _ lost.failed
        exact .failed member (.inl ordinary)
    | halted busy halts _ _ _ _ _ =>
      obtain ⟨-, rfl, -⟩ := Focus.enter.inj (busy.symm.trans here)
      obtain ⟨_, other, -⟩ | ⟨other, -⟩ := halts <;> cases other
    | ended busy _ _ _ _ => cases busy.symm.trans here
    | resumed idle _ _ _ _ _ _ _ => cases idle.symm.trans here
    | begun r caller => exact .begun ((newTask_sameRuns r).focus.trans here)
    | rested rests focus => exact .begun (focus.trans here)
  | @due body stood =>
    rcases m.rests sound stood (by simp) with still | ⟨o, goesOn, told⟩
    · exact .due still
    · obtain ⟨asked, purpose⟩ := stood
      obtain rfl := uncancelled c _ _ asked (.inl ⟨_, _, ⟨asked, purpose⟩, rfl⟩) purpose
      have ok := told purpose
      obtain ⟨r, own, goesOn⟩ | ⟨_, other, -⟩ := goesOn
      · obtain rfl := Position.unstarted.inj own
        obtain ⟨v, -, focus⟩ | ⟨e, failed, -⟩ := goesOn
        · exact .begun focus
        · cases failed.symm.trans ok
      · cases other

theorem Reachable.pending {p : Position} {waiting : Option FutureId} (reached : Reachable plan w)
    (stood : w.Stands t p waiting) (rest : p ≠ .active) : w.settlement? t = none := by
  induction reached generalizing t p waiting with
  | @fresh w h =>
    have lt := stood.lt
    rw [h.futures] at lt
    exact absurd lt (Nat.not_lt_zero t)
  | @move w w' before m ih =>
    have sound := before.sound
    have resting {tasks : List (FutureId × Routine)} {w₁ : World} (rests : Rests tasks w w₁)
        (made : ∀ x ∈ tasks, w.futures.size ≤ x.1) (stood : w₁.Stands t p waiting) :
        w₁.settlement? t = none := by
      obtain ⟨asked, own⟩ := stood
      rw [rests.settled t (kind?_of_purpose? own)]
      rcases rests.stands t _ _ ⟨asked, own⟩ with old | ⟨r, -, -, member⟩
      · exact ih old rest
      · exact settlement?_new (made _ member)
    have shifted {u : FutureId} {q : Position} {x : Option FutureId} (shifts : Shifts u q x w w') (other : t ≠ u) :
        w'.settlement? t = none :=
      (shifts.settled t other).trans (ih ((shifts.others t _ _ other).mp stood) rest)
    cases m.turn sound with
    | acted act rests => exact resting (rests.congr rfl) (fun x member => (act.effect.made x member).1) stood
    | @halted _ u _ _ _ busy _ shifts same _ _ _ =>
      by_cases mine : t = u
      · subst mine
        exact (same t).trans (sound.tasks.focus t (by rw [busy]; rfl)).1
      · exact shifted shifts mine
    | @ended _ u _ _ shifts _ _ _ =>
      by_cases mine : t = u
      · subst mine
        exact absurd (stood.unique shifts.own).1 rest
      · exact shifted shifts mine
    | @resumed _ u _ _ _ _ _ shifts _ _ _ _ _ =>
      by_cases mine : t = u
      · subst mine
        exact absurd (stood.unique shifts.own).1 rest
      · exact shifted shifts mine
    | begun r caller => exact resting (.newTask r) (by simp) stood
    | rested rests focus => exact resting rests (by simp) stood

/-! ### When nothing is left to do -/

theorem Runs.since {p : Position} {waiting : Option FutureId} (runs : Runs plan run w)
    (compiled : plan.tree.Compiled) (stood : w.Stands t p waiting) (concerns : p.Concerns run) : w.Since run t := by
  obtain ⟨aim, -, loyal⟩ := runs.reachable.loyal compiled
  obtain ⟨o, outcome, later⟩ := loyal.known t run (loyal.stands t p waiting run stood concerns)
  exact ⟨o, outcome, later, stood.lt⟩

/-- When nothing is left to do, no task of a run waits for what is there. -/
theorem Heeds.pending (heeds : w.Heeds t f (frame :: stack)) (runs : Runs plan run w)
    (compiled : plan.tree.Compiled) (done : w.step plan = none) (own : frame.run? = some run) :
    w.settlement? f = none := by
  obtain ⟨idle, -, -⟩ := idle_of_step done
  cases heeds with
  | told here _ _ => cases idle.symm.trans here
  | waiting waits =>
    rcases waits with here | stood
    · cases idle.symm.trans here
    · have dated := ((runs.reachable.dated compiled).suspended t _ _ stood).2 f rfl
      exact runs.unsettled done stood (runs.reachable.pending stood (by simp)) (dated frame (by simp) run own)

/-- When nothing is left to do, a member that has reported has completed with that, or has failed, unless
its run has settled. -/
theorem Attended.ended (attended : w.Attended run call c) (runs : Runs plan run w)
    (compiled : plan.tree.Compiled) (done : w.step plan = none) (report : w.first? call.completion = some f)
    (settled : w.settlement? f = some s) :
    (∃ v r payload, s = .value v ∧ v.report = .result r ∧ (run, .completed call.node.head r payload) ∈ w.notes) ∨
      (∃ e, (run, .failed call.node.head e) ∈ w.notes ∧
        (e.fault.nature = .ordinary ∨ ∀ x, s = .failed x → e = x)) ∨ (∃ v, s = .value v) ∧ w.isSettled run := by
  obtain ⟨idle, ready, -⟩ := idle_of_step done
  cases attended with
  | moot report' settled' past =>
    obtain rfl := Option.some.inj (report'.symm.trans report)
    exact .inr (.inr ⟨⟨_, Option.some.inj (settled.symm.trans settled')⟩, past⟩)
  | @completed f' v r payload report' settled' result noted =>
    obtain rfl := Option.some.inj (report'.symm.trans report)
    obtain rfl := Option.some.inj (settled'.symm.trans settled)
    exact .inl ⟨v, r, payload, rfl, result, noted⟩
  | @failed e noted why =>
    refine .inr (.inl ⟨e, noted, why.imp id ?_⟩)
    rintro ⟨f', s', report', settled', same⟩
    obtain rfl := Option.some.inj (report'.symm.trans report)
    obtain rfl := Option.some.inj (settled'.symm.trans settled)
    exact same
  | begun here => cases idle.symm.trans here
  | heeds report' heeds =>
    obtain rfl := Option.some.inj (report'.symm.trans report)
    cases (heeds.pending runs compiled done rfl).symm.trans settled
  | due stood =>
    have queued := runs.queued (runs.since compiled stood rfl)
      ⟨_, stood, by simp, runs.reachable.pending stood (by simp)⟩
    rw [ready] at queued
    cases queued

/-! ### Members that a group has called -/

/-- Whether a run has called a member of a group, and gave it a descriptor. -/
inductive Dispatched (plan : Plan) (run : RunId) : World → Node → CompletionId → Prop where
  | called {w w' : World} {t : FutureId} {place : Path} {position : Nat} {n : Node} {rest : List Entry}
      {chains : List FutureId} {stack : List Frame} (runs : Runs plan run w)
      (here : w.focus = .enter t (.dispatch run place position (n.entry :: rest) chains) stack)
      (stepped : w.step plan = some w') : Dispatched plan run w' n w.completions.size
  | later {w w' : World} {n : Node} {c : CompletionId} (dispatched : Dispatched plan run w n c) (m : Move plan w w')
      (undisturbed : Undisturbed plan run w w') : Dispatched plan run w' n c

/-- The act that calls a member gives it a chain, unless the call fails. -/
theorem Act.dispatched {place : Path} {position : Nat} {rest : List Entry} {chains : List FutureId}
    (act : Act plan w w.focus notes tasks w' next)
    (here : w.focus = .enter t (.dispatch run place position (n.entry :: rest) chains) stack) :
    (∃ e args, Lost run n.head e [(run, .called n.head args)] t stack w notes w' next ∧ tasks = []) ∨
      ∃ call body c, call.node = n ∧ call.completion = w.completions.size ∧
        next = .enter t (.dispatch run place (position + 1) rest (chains ++ [c])) stack ∧
        w'.Stands c (.unstarted (.member run call body)) none := by
  rw [here] at act
  generalize same : Focus.enter t (.dispatch run place position (n.entry :: rest) chains) stack = focus at act
  cases act with
  | undispatched _ lost =>
    obtain ⟨rfl, routine, rfl⟩ := Focus.enter.inj same
    obtain ⟨rfl, rfl, rfl, entries, rfl⟩ := Routine.dispatch.inj routine
    obtain rfl := Tree.entry_injective (List.cons.inj entries).1
    exact .inl ⟨_, _, lost, rfl⟩
  | plain call _ _ _ own _ =>
    obtain ⟨rfl, routine, rfl⟩ := Focus.enter.inj same
    obtain ⟨rfl, rfl, rfl, entries, rfl⟩ := Routine.dispatch.inj routine
    obtain ⟨first, rfl⟩ := List.cons.inj entries
    obtain rfl := Tree.entry_injective first
    exact .inr ⟨call, none, _, rfl, own, rfl, false, (purpose?_newTask _).trans (if_pos rfl)⟩
  | watched call _ _ _ _ _ _ _ _ own _ =>
    obtain ⟨rfl, routine, rfl⟩ := Focus.enter.inj same
    obtain ⟨rfl, rfl, rfl, entries, rfl⟩ := Routine.dispatch.inj routine
    obtain ⟨first, rfl⟩ := List.cons.inj entries
    obtain rfl := Tree.entry_injective first
    exact .inr ⟨call, some _, _, rfl, own, rfl, false,
      (purpose?_newTask _).trans (if_pos (by rw [size_onSettled]; rfl))⟩
  | played own _ _ _ =>
    obtain ⟨-, rfl, -⟩ := Focus.enter.inj same
    cases own
  | launched own _ _ _ _ _ =>
    obtain ⟨-, rfl, -⟩ := Focus.enter.inj same
    cases own
  | _ => cases same

namespace Dispatched

variable {d : CompletionId}

theorem runs (dispatched : Dispatched plan run w n d) : Runs plan run w := by
  induction dispatched with
  | called runs here stepped => exact runs.step stepped
  | later _ m undisturbed ih => exact ih.move m undisturbed

theorem work (dispatched : Dispatched plan run w n d) (fuel : Nat) :
    Dispatched plan run (World.work plan fuel [] w).2 n d := by
  induction fuel generalizing w with
  | zero => exact dispatched
  | succ fuel ih =>
    unfold World.work
    split
    · exact dispatched
    · rename_i stepped
      exact ih (dispatched.later (.stepped stepped) ⟨step_loop dispatched.runs.reachable.sound stepped, .inl stepped⟩)

/-- A member that has been called has been given a chain, or its call has failed. -/
theorem attended (dispatched : Dispatched plan run w n d) (compiled : plan.tree.Compiled) :
    (∃ call c, call.node = n ∧ call.completion = d ∧ w.Attended run call c) ∨
      ∃ e, (run, .failed n.head e) ∈ w.notes := by
  induction dispatched with
  | @called w w' t place position n rest chains stack runs here stepped =>
    have sound := runs.reachable.sound
    cases step_stepped sound.steady stepped with
    | acted act =>
      rcases act.dispatched here with ⟨e, _, lost, -⟩ | ⟨call, _, c, own, made, -, stood⟩
      · exact .inr ⟨e, lost.noted⟩
      · exact .inl ⟨call, c, own, made, .due stood⟩
    | suspended busy _ => cases busy.symm.trans here
    | yielded busy => cases busy.symm.trans here
    | ended busy => cases busy.symm.trans here
    | handled idle _ => cases idle.symm.trans here
    | turned idle _ => cases idle.symm.trans here
  | @later w w' n d dispatched m undisturbed ih =>
    have reached := dispatched.runs.reachable
    rcases ih with ⟨call, c, rfl, rfl, attended⟩ | ⟨e, failed⟩
    · exact .inl ⟨call, c, rfl, rfl, attended.move reached compiled (dispatched.runs.calm compiled) m⟩
    · exact .inr ⟨e, (m.grown reached.sound.steady).subset_notes failed⟩

end Dispatched

end Conductor.World
