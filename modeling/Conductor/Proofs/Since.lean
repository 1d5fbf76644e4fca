import Conductor.Proofs.Serving

/-!
# What is newer than a run

Whatever a run waits for was made after the run had begun: its chains and joint futures, the reports of
its members, and their bodies. So it belongs to the loop of the run as long as that loop is the running
one.
-/

namespace Conductor

def Routine.refs : Routine → List FutureId
  | .dispatch _ _ _ _ chains => chains
  | .member _ _ body => body.toList
  | _ => []

def Frame.refs : Frame → List FutureId
  | .completing _ _ body | .following _ _ body => body.toList
  | .ending _ _ body => [body]
  | _ => []

def Routine.call? : Routine → Option Call
  | .member _ call _ => some call
  | _ => none

def Frame.call? : Frame → Option Call
  | .completing _ call _ => some call
  | _ => none

namespace World

def Since (w : World) (run : RunId) (f : FutureId) : Prop :=
  ∃ o, w.outcome? run = some o ∧ o < f ∧ f < w.futures.size

structure Dated (w : World) (run : RunId) (refs : List FutureId) (call? : Option Call) : Prop where
  refs : ∀ f ∈ refs, w.Since run f
  report : ∀ call, call? = some call → ∃ f, w.first? call.completion = some f ∧ w.Since run f

def DatedStack (w : World) (stack : List Frame) : Prop :=
  ∀ frame ∈ stack, ∀ run, frame.run? = some run → w.Dated run frame.refs frame.call?

def DatedRoutine (w : World) (r : Routine) : Prop := ∀ run, r.run? = some run → w.Dated run r.refs r.call?

/-- Whether what a stack waits for is newer than the run of its top. -/
def DatedWait (w : World) (f : FutureId) (stack : List Frame) : Prop :=
  ∀ frame ∈ stack.head?, ∀ run, frame.run? = some run → w.Since run f

def DatedFocus (w : World) : Focus → Prop
  | .idle => True
  | .enter _ r stack => w.DatedRoutine r ∧ w.DatedStack stack ∧ ∀ f, r = .wait f → w.DatedWait f stack
  | .leave _ _ stack => w.DatedStack stack

variable {plan : Plan} {w w' : World} {run : RunId} {t f o : FutureId} {stack : List Frame} {e : Raised}
  {notes pre : List Note} {tasks : List (FutureId × Routine)} {next focus : Focus} {call : Call}
  {body : Option FutureId} {h : Head} {aim : FutureId → Aim} {r : Routine} {frame : Frame}
  {refs : List FutureId} {call? : Option Call}

theorem Since.grown (since : w.Since run f) (grown : Grown w w') : w'.Since run f := by
  obtain ⟨o, outcome, later, known⟩ := since
  exact ⟨o, grown.outcomes run o outcome, later, grown.known known⟩

theorem Since.of_new (roles : w.Roles) (grown : Grown w w') (outcome : w.outcome? run = some o)
    (new : w.futures.size ≤ f) (made : f < w'.futures.size) : w'.Since run f :=
  ⟨o, grown.outcomes run o outcome, Nat.lt_of_lt_of_le (roles.outcome_lt outcome) new, made⟩

theorem Dated.grown (dated : w.Dated run refs call?) (grown : Grown w w') : w'.Dated run refs call? where
  refs f member := (dated.refs f member).grown grown
  report call own := by
    obtain ⟨f, report, since⟩ := dated.report call own
    exact ⟨f, grown.firsts _ f report, since.grown grown⟩

theorem DatedStack.grown (dated : w.DatedStack stack) (grown : Grown w w') : w'.DatedStack stack :=
  fun frame member run own => (dated frame member run own).grown grown

theorem DatedRoutine.grown (dated : w.DatedRoutine r) (grown : Grown w w') : w'.DatedRoutine r :=
  fun run own => (dated run own).grown grown

theorem DatedWait.grown (dated : w.DatedWait f stack) (grown : Grown w w') : w'.DatedWait f stack :=
  fun frame member run own => (dated frame member run own).grown grown

theorem DatedFocus.grown (dated : w.DatedFocus focus) (grown : Grown w w') : w'.DatedFocus focus := by
  cases focus with
  | idle => trivial
  | enter t r stack =>
    exact ⟨dated.1.grown grown, dated.2.1.grown grown, fun f own => (dated.2.2 f own).grown grown⟩
  | leave t o stack => exact DatedStack.grown dated grown

theorem Dated.empty : w.Dated run [] none := ⟨by simp, by simp⟩

theorem datedRoutine_foreign (own : r.run? = none) : w.DatedRoutine r :=
  fun _ there => nomatch own.symm.trans there

theorem datedRoutine_bare (refs : r.refs = []) (call : r.call? = none) : w.DatedRoutine r :=
  fun run _ => refs ▸ call ▸ (Dated.empty : w.Dated run [] none)

theorem datedStack_cons :
    w.DatedStack (frame :: stack) ↔
      (∀ run, frame.run? = some run → w.Dated run frame.refs frame.call?) ∧ w.DatedStack stack :=
  List.forall_mem_cons

theorem datedStack_foreign {frames : List Frame} (foreign : ∀ frame ∈ frames, frame.run? = none)
    (dated : w.DatedStack stack) : w.DatedStack (frames ++ stack) :=
  List.forall_mem_append.mpr ⟨fun frame member _ own => (nomatch (foreign frame member).symm.trans own), dated⟩

theorem DatedStack.cons_bare (dated : w.DatedStack stack) (refs : frame.refs = []) (call : frame.call? = none) :
    w.DatedStack (frame :: stack) :=
  datedStack_cons.mpr ⟨fun run _ => refs ▸ call ▸ (Dated.empty : w.Dated run [] none), dated⟩

theorem datedFocus_enter (routine : w.DatedRoutine r) (frames : w.DatedStack stack) (other : ∀ f, r ≠ .wait f) :
    w.DatedFocus (.enter t r stack) := ⟨routine, frames, fun f own => absurd own (other f)⟩

theorem datedFocus_wait (frames : w.DatedStack stack) (wait : w.DatedWait f stack) :
    w.DatedFocus (.enter t (.wait f) stack) :=
  ⟨datedRoutine_foreign rfl, frames, fun g own => by obtain rfl := Routine.wait.inj own; exact wait⟩

theorem Plays.dated (plays : Plays w t stack next) (roles : w.Roles) (dated : w.DatedStack stack)
    (known : ∀ run, Stacks run stack → ∃ o, w.outcome? run = some o) : w.DatedFocus next := by
  cases plays with
  | left _ => exact dated
  | entered r frames own foreign waits =>
    refine ⟨datedRoutine_foreign own, datedStack_foreign foreign dated, fun f same frame member run mine => ?_⟩
    obtain ⟨timed, latest⟩ := waits f same
    have there : frame ∈ stack := by
      rcases List.mem_append.mp (List.mem_of_mem_head? member) with own | own
      · cases (foreign frame own).symm.trans mine
      · exact own
    obtain ⟨o, outcome⟩ := known run ⟨frame, there, mine⟩
    have other : o ≠ f := fun same => by
      have kind := roles.outcomes run o outcome
      rw [same, kind?_of_purpose? timed] at kind
      cases kind
    have old := roles.outcome_lt outcome
    exact ⟨o, outcome, by grind, by grind⟩

theorem Lost.dated (lost : Lost run h e pre t stack w notes w' next) (dated : w.DatedStack stack) :
    w'.DatedFocus next := by
  have grown := Grown.effect lost.effect
  cases lost
  exact DatedStack.grown dated grown

theorem Finished.dated (finished : Finished plan run call body pre t stack w notes w' next)
    (dated : w.DatedStack stack) (own : ∀ b, body = some b → w.Since run b) : w'.DatedFocus next := by
  have grown := Grown.effect finished.total
  cases finished with
  | lost lost => exact lost.dated dated
  | moot _ _ => exact DatedStack.grown dated grown
  | followed _ _ _ _ =>
    refine datedFocus_enter (datedRoutine_bare rfl rfl) (datedStack_cons.mpr ⟨fun other same => ?_,
      dated.grown grown⟩) (by simp)
    obtain rfl := Option.some.inj same
    exact ⟨fun b member => (own b (by simpa [Frame.refs] using member)).grown grown, by simp [Frame.call?]⟩

theorem chainMember_size {explicit : Bool} (b : FutureId) :
    w.futures.size < (w.chainMember run call explicit b).2.futures.size := by
  unfold chainMember
  dsimp only
  rw [size_newTask, size_onSettled]
  exact Nat.lt_succ_self _

theorem DatedRoutine.dispatch {place : Path} {position : Nat} {members rest : List Entry}
    {chains : List FutureId} {c : FutureId} (dated : w.DatedRoutine (.dispatch run place position members chains))
    (grown : Grown w w') (new : w'.Since run c) :
    w'.DatedRoutine (.dispatch run place (position + 1) rest (chains ++ [c])) := by
  intro other own
  obtain rfl := Option.some.inj own
  refine ⟨fun f member => ?_, by simp [Routine.call?]⟩
  rcases List.mem_append.mp member with old | last
  · exact ((dated run own).refs f old).grown grown
  · exact List.mem_singleton.mp last ▸ new

section

variable (roles : w.Roles) (known : ∀ run, focus.Concerns run → ∃ o, w.outcome? run = some o)
include roles known

/-- What an act turns to refers to what it referred to before, or to what the act has made. -/
theorem Act.dated_next (act : Act plan w focus notes tasks w' next) (dated : w.DatedFocus focus) :
    w'.DatedFocus next := by
  have grown := Grown.effect act.effect
  have new {run : RunId} {f : FutureId} (concerns : focus.Concerns run) (later : w.futures.size ≤ f)
      (made : f < w'.futures.size) : w'.Since run f := by
    obtain ⟨o, outcome⟩ := known run concerns
    exact .of_new roles grown outcome later made
  have outcomes (run : RunId) (stacked : focus.Concerns run) : ∃ o, w'.outcome? run = some o := by
    obtain ⟨o, outcome⟩ := known run stacked
    exact ⟨o, grown.outcomes run o outcome⟩
  have roles' := (roles.effect act.effect).1
  cases act with
  | played _ _ _ plays => exact plays.dated roles' (dated.2.1.grown grown) fun run own => outcomes run (.inr own)
  | replayed _ _ plays =>
    exact plays.dated roles' ((datedStack_cons.mp dated).2.grown grown) fun run own =>
      outcomes run (stacks_cons.mpr (.inr own))
  | launched _ _ _ _ _ _ =>
    exact datedFocus_wait ((dated.2.1.grown grown).cons_bare rfl rfl) (by simp [DatedWait, Frame.run?])
  | delivered _ => exact dated.2.1.grown grown
  | sequenced _ _ finished => exact finished.dated dated.2.1 (by simp)
  | inside _ _ _ =>
    exact datedFocus_enter (datedRoutine_foreign rfl) ((dated.2.1.grown grown).cons_bare rfl rfl) (by simp)
  | outside _ _ _ later own _ =>
    refine datedFocus_wait ((dated.2.1.grown grown).cons_bare rfl rfl) fun frame member run mine => ?_
    obtain rfl := Option.some.inj member
    exact new (.inl mine) later (purpose?_lt own)
  | joined _ _ =>
    refine datedFocus_wait ((dated.2.1.grown grown).cons_bare rfl rfl) fun frame member run mine => ?_
    obtain rfl := Option.some.inj member
    exact new (.inl mine) (Nat.le_refl _) (kind?_lt (kind_newJoint _))
  | undispatched _ lost => exact lost.dated dated.2.1
  | unasked lost => exact lost.dated dated.2.1
  | plain _ _ effect _ _ _ =>
    have chain := new (.inl rfl) (Grown.effect effect).size_le
      (size_newTask (w := _) _ ▸ Nat.lt_succ_self _)
    exact datedFocus_enter (dated.1.dispatch grown chain) (dated.2.1.grown grown) (by simp)
  | @watched t run _ _ call _ _ _ _ _ w₁ _ body explicit _ effect _ _ _ _ _ _ _ =>
    have chain := new (f := w₁.futures.size) (.inl rfl) (Grown.effect effect).size_le
      (@chainMember_size w₁ run call explicit body)
    exact datedFocus_enter (dated.1.dispatch grown chain) (dated.2.1.grown grown) (by simp)
  | spawned _ =>
    have chain := new (.inl rfl) (Nat.le_refl _) (size_newTask (w := w.note _ _) _ ▸ Nat.lt_succ_self _)
    exact datedFocus_enter (dated.1.dispatch grown chain) (dated.2.1.grown grown) (by simp)
  | @asked t run call body stack f report =>
    obtain ⟨refs, reports⟩ := dated.1 run rfl
    obtain ⟨g, own, since⟩ := reports call rfl
    obtain rfl := Option.some.inj (own.symm.trans report)
    refine datedFocus_wait (datedStack_cons.mpr ⟨fun other mine => ?_, dated.2.1⟩) fun frame member other mine => ?_
    · obtain rfl := Option.some.inj mine
      exact ⟨refs, reports⟩
    · obtain rfl := Option.some.inj member
      obtain rfl := Option.some.inj mine
      exact since
  | returned finished => exact finished.dated (datedStack_cons.mp dated).2 (by simp)
  | @completed t run v call body stack _ _ _ finished =>
    obtain ⟨own, rest⟩ := datedStack_cons.mp dated
    exact finished.dated rest fun b same => (own run rfl).refs b (by simp [Frame.refs, same])
  | @lingering t run v call b stack =>
    obtain ⟨own, rest⟩ := datedStack_cons.mp dated
    have body := (own run rfl).refs b (by simp [Frame.refs])
    refine datedFocus_wait (datedStack_cons.mpr ⟨fun other mine => ?_, rest.grown grown⟩)
      fun frame member other mine => ?_
    · obtain rfl := Option.some.inj mine
      exact ⟨by simpa [Frame.refs] using body.grown grown, by simp [Frame.call?]⟩
    · obtain rfl := Option.some.inj member
      obtain rfl := Option.some.inj mine
      refine new (stacks_cons.mpr (.inl rfl)) (Nat.le_refl _) ?_
      rw [size_onSettled, size_newFuture]
      exact Nat.lt_succ_self _
  | unreturned lost => exact lost.dated (datedStack_cons.mp dated).2
  | uncompleted lost => exact lost.dated (datedStack_cons.mp dated).2
  | driven | single | grouped =>
    exact datedFocus_enter (datedRoutine_bare rfl rfl) (dated.2.1.cons_bare rfl rfl) (by simp)
  | routed => exact datedFocus_enter (datedRoutine_bare rfl rfl) dated.2.1 (by simp)
  | resumed => exact datedFocus_enter (datedRoutine_bare rfl rfl) (datedStack_cons.mp dated).2 (by simp)
  | missed | unrouted | exhausted | skipped | absent => exact dated.2.1.grown grown
  | _ => exact (datedStack_cons.mp dated).2.grown grown

theorem Act.dated_tasks (act : Act plan w focus notes tasks w' next) (x : FutureId × Routine)
    (member : x ∈ tasks) : w'.DatedRoutine x.2 := by
  have grown := Grown.effect act.effect
  have new {run : RunId} {f : FutureId} (concerns : focus.Concerns run) (later : w.futures.size ≤ f)
      (made : f < w'.futures.size) : w'.Since run f := by
    obtain ⟨o, outcome⟩ := known run concerns
    exact .of_new roles grown outcome later made
  cases act with
  | launched _ _ _ _ _ _ =>
    obtain rfl := List.mem_singleton.mp member
    exact datedRoutine_bare rfl rfl
  | spawned _ =>
    obtain rfl := List.mem_singleton.mp member
    exact datedRoutine_bare rfl rfl
  | @plain t run _ _ call _ _ _ _ w₁ f _ effect report _ recent =>
    obtain rfl := List.mem_singleton.mp member
    intro other own
    obtain rfl := Option.some.inj own
    have after := Grown.newTask (w := w₁) (.member run call none)
    have made := after.known (kind?_lt ((roles.effect effect).1.firsts _ _ report))
    refine ⟨by simp [Routine.refs], fun call' same => ?_⟩
    obtain rfl := Option.some.inj same
    exact ⟨f, after.firsts _ f report, new (.inl rfl) (Nat.le_of_eq recent.symm) made⟩
  | @watched t run _ _ call _ _ _ _ bodies w₁ f body explicit _ effect scripts report later made _ _ recent =>
    rcases List.mem_cons.mp member with rfl | script
    · intro other own
      obtain rfl := Option.some.inj own
      have after : Grown w₁ (w₁.chainMember run call explicit body).2 := by
        unfold chainMember
        exact ((Grown.effect (.began run _ _)).trans .onSettled).trans (.newTask _)
      refine ⟨fun b own => ?_, fun call' same => ?_⟩
      · obtain rfl : b = body := by simpa [Routine.refs] using own
        exact new (.inl rfl) later (after.known made)
      · obtain rfl := Option.some.inj same
        have old := kind?_lt ((roles.effect effect).1.firsts _ _ report)
        exact ⟨f, after.firsts _ f report, new (.inl rfl) (Nat.le_of_eq recent.symm) (after.known old)⟩
    · exact datedRoutine_foreign (scripts x script).1
  | _ => cases member

end

structure AllDated (w : World) : Prop where
  unstarted : ∀ t r waiting, w.Stands t (.unstarted r) waiting → w.DatedRoutine r
  suspended : ∀ t stack waiting, w.Stands t (.suspended stack) waiting →
    w.DatedStack stack ∧ ∀ f, waiting = some f → w.DatedWait f stack
  focus : w.DatedFocus w.focus

namespace AllDated

variable {p : Position} {waiting : Option FutureId}

theorem fresh (h : w.Fresh) : AllDated w where
  unstarted _ _ _ there := absurd there.lt (by simp [h.futures])
  suspended _ _ _ there := absurd there.lt (by simp [h.futures])
  focus := by rw [h.focus]; trivial

variable (dated : AllDated w) (grown : Grown w w')
include dated grown

theorem rests (rests : Rests tasks w w') (new : ∀ x ∈ tasks, w'.DatedRoutine x.2)
    (focus : w'.DatedFocus w'.focus) : AllDated w' where
  unstarted t r waiting there := by
    rcases rests.stands t _ waiting there with before | ⟨r', own, -, member⟩
    · exact (dated.unstarted t r waiting before).grown grown
    · obtain rfl := Position.unstarted.inj own
      exact new _ member
  suspended t stack waiting there := by
    rcases rests.stands t _ waiting there with before | ⟨r', own, -, -⟩
    · obtain ⟨frames, waits⟩ := dated.suspended t stack waiting before
      exact ⟨frames.grown grown, fun f own => (waits f own).grown grown⟩
    · cases own
  focus := focus

theorem shifts (shifts : Shifts t p waiting w w') (started : ∀ r, p ≠ .unstarted r)
    (own : ∀ stack, p = .suspended stack → w.DatedStack stack ∧ ∀ f, waiting = some f → w.DatedWait f stack)
    (focus : w'.DatedFocus w'.focus) : AllDated w' where
  unstarted u r x there := by
    by_cases mine : u = t
    · exact absurd (Stands.unique (mine ▸ there) shifts.own).1.symm (started r)
    · exact (dated.unstarted u r x ((shifts.others u _ x mine).mp there)).grown grown
  suspended u stack x there := by
    by_cases mine : u = t
    · subst mine
      obtain ⟨rfl, rfl⟩ := there.unique shifts.own
      obtain ⟨frames, waits⟩ := own stack rfl
      exact ⟨frames.grown grown, fun f same => (waits f same).grown grown⟩
    · obtain ⟨frames, waits⟩ := dated.suspended u stack x ((shifts.others u _ x mine).mp there)
      exact ⟨frames.grown grown, fun f same => (waits f same).grown grown⟩
  focus := focus

end AllDated

/-- Whatever move the machine makes, tasks refer only to what is newer than the runs that they serve. -/
theorem AllDated.move (dated : AllDated w) (loyal : Loyal aim w) (reached : Reachable plan w)
    (m : Move plan w w') : AllDated w' := by
  have sound := reached.sound
  have grown := m.grown sound.steady
  cases m.turn sound with
  | @acted notes tasks w₁ next act rests =>
    have known (run : RunId) (concerns : w.focus.Concerns run) : ∃ o, w.outcome? run = some o := by
      obtain ⟨t, busy⟩ := Option.isSome_iff_exists.mp act.task.1
      obtain ⟨o, outcome, -⟩ := loyal.known t run (loyal.focus t run busy concerns)
      exact ⟨o, outcome⟩
    have after : Grown w₁ (w₁.focusOn next) := .focusOn next
    exact dated.rests grown (rests.congr rfl)
      (fun x member => (act.dated_tasks sound.roles known x member).grown after)
      ((act.dated_next sound.roles known dated.focus).grown after)
  | @halted _ t r stack waiting busy halts shifts same idle =>
    refine dated.shifts grown shifts (fun _ => by simp) (fun stack' own => ?_) (by rw [idle]; trivial)
    obtain rfl := Position.suspended.inj own
    have focus := dated.focus
    rw [busy] at focus
    refine ⟨focus.2.1, fun f waits => ?_⟩
    rcases halts with ⟨g, rfl, same⟩ | ⟨-, none⟩
    · obtain rfl := Option.some.inj (same.symm.trans waits)
      exact focus.2.2 _ rfl
    · cases none.symm.trans waits
  | ended busy shifts value idle =>
    exact dated.shifts grown shifts (fun _ => by simp) (fun _ own => by cases own) (by rw [idle]; trivial)
  | @resumed _ t p waiting o idle stood shifts same heard goesOn =>
    refine dated.shifts grown shifts (fun _ => by simp) (fun _ own => by cases own) ?_
    rcases goesOn with ⟨r, rfl, ⟨v, -, here⟩ | ⟨e, -, here⟩⟩ | ⟨stack, rfl, here⟩ <;> rw [here]
    · refine ⟨(dated.unstarted t r waiting stood).grown grown, by simp [DatedStack], fun f same => ?_⟩
      simp [DatedWait]
    · simp [DatedFocus, DatedStack]
    · exact (dated.suspended t stack waiting stood).1.grown grown
  | begun r caller =>
    have own : r.run? = none := by cases r <;> simp_all [Routine.isCaller, Routine.run?]
    refine dated.rests grown (.newTask r) (List.forall_mem_singleton.mpr (datedRoutine_foreign own)) ?_
    rw [(newTask_sameRuns r).focus]
    exact dated.focus.grown grown
  | rested rests focus =>
    refine dated.rests grown rests (by simp) ?_
    rw [focus]
    exact dated.focus.grown grown

theorem Reachable.dated (reached : Reachable plan w) (compiled : plan.tree.Compiled) : AllDated w := by
  induction reached with
  | fresh fresh => exact .fresh fresh
  | move before m ih =>
    obtain ⟨aim, -, loyal⟩ := before.loyal compiled
    exact ih.move loyal before m

end World

end Conductor
