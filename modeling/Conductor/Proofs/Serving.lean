import Conductor.Proofs.Barrier

/-!
# Whom tasks serve

A task serves a run from its beginning to its end: the driver of the run, and the chains of its groups.
Whatever such a task enters, and whatever frames it stacks, belongs to that run or to nobody; no other
task comes to do anything for the run.
-/

namespace Conductor

def Aim.run? : Aim → Option RunId
  | .loose | .success _ => none
  | .whole run | .entry run _ | .branch run _ _ => some run

def Stacks (run : RunId) (stack : List Frame) : Prop := ∃ frame ∈ stack, frame.run? = some run

def Focus.Concerns (run : RunId) : Focus → Prop
  | .idle => False
  | .enter _ r stack => r.run? = some run ∨ Stacks run stack
  | .leave _ _ stack => Stacks run stack

def Position.Concerns (run : RunId) : Position → Prop
  | .unstarted r => r.run? = some run
  | .suspended stack => Stacks run stack
  | .active => False

theorem Routine.run?_aim {r : Routine} (begins : r.begins) : r.aim.run? = r.run? := by
  cases r <;> first | rfl | cases begins

theorem Routine.run?_of_aim {r : Routine} {run : RunId} (aim : r.aim.run? = some run) :
    r.run? = some run := by
  cases r <;> first | exact aim | cases aim

@[simp] theorem stacks_nil (run : RunId) : ¬ Stacks run [] := by simp [Stacks]

@[simp] theorem stacks_cons {run : RunId} {frame : Frame} {stack : List Frame} :
    Stacks run (frame :: stack) ↔ frame.run? = some run ∨ Stacks run stack := by simp [Stacks]

theorem stacks_foreign {run : RunId} {frames stack : List Frame}
    (foreign : ∀ frame ∈ frames, frame.run? = none) :
    Stacks run (frames ++ stack) ↔ Stacks run stack := by
  induction frames with
  | nil => rfl
  | cons frame rest ih =>
    obtain ⟨own, others⟩ := List.forall_mem_cons.mp foreign
    simp [own, ih others]

namespace World

variable {plan : Plan} {w w' : World} {run : RunId} {t f : FutureId} {stack : List Frame} {e : Raised}
  {notes pre : List Note} {tasks : List (FutureId × Routine)} {next focus : Focus} {call : Call}
  {body : Option FutureId} {h : Head} {other : RunId} {p : Position} {waiting : Option FutureId}
  {aim : FutureId → Aim}

/-! ### What acts turn to -/

theorem Plays.concerns (plays : Plays w t stack next) (own : next.Concerns run) : Stacks run stack := by
  cases plays with
  | left _ => exact own
  | entered r frames none foreign _ =>
    rcases own with own | own
    · cases none.symm.trans own
    · exact (stacks_foreign foreign).mp own

theorem Lost.concerns (lost : Lost other h e pre t stack w notes w' next) (own : next.Concerns run) :
    Stacks run stack := by
  cases lost
  exact own

theorem Finished.concerns (finished : Finished plan other call body pre t stack w notes w' next)
    (own : next.Concerns run) : other = run ∨ Stacks run stack := by
  cases finished with
  | lost lost => exact .inr (lost.concerns own)
  | moot _ _ => exact .inr own
  | followed _ _ _ _ =>
    simp only [Focus.Concerns, Routine.run?, stacks_cons, Frame.run?, Option.some.injEq] at own
    rcases own with own | own | own
    · exact .inl own
    · exact .inl own
    · exact .inr own

theorem Effect.begins (effect : Effect notes tasks w w') : ∀ x ∈ tasks, x.2.begins := by
  induction effect with
  | tasked r begins => exact List.forall_mem_singleton.mpr begins
  | trans _ _ ih ih' => exact List.forall_mem_append.mpr ⟨ih', ih⟩
  | _ => exact fun _ member => nomatch member

theorem Act.concerns (act : Act plan w focus notes tasks w' next) (own : next.Concerns run) :
    focus.Concerns run := by
  cases act
  case played plays => exact .inr (plays.concerns own)
  case replayed plays => exact stacks_cons.mpr (.inr (plays.concerns own))
  case launched => exact .inr (by simpa [Focus.Concerns, Routine.run?, Frame.run?] using own)
  case sequenced finished => exact (finished.concerns own).imp (congrArg some) id
  case returned finished => exact stacks_cons.mpr ((finished.concerns own).imp (congrArg some) id)
  case completed finished => exact stacks_cons.mpr ((finished.concerns own).imp (congrArg some) id)
  case undispatched lost => exact .inr (lost.concerns own)
  case unasked lost => exact .inr (lost.concerns own)
  case unreturned lost => exact stacks_cons.mpr (.inr (lost.concerns own))
  case uncompleted lost => exact stacks_cons.mpr (.inr (lost.concerns own))
  all_goals simp_all [Focus.Concerns, Routine.run?, Frame.run?]

/-- An act makes tasks for the run that the task at work is at work for, or begins a run. -/
theorem Act.assigns (act : Act plan w focus notes tasks w' next) {x : FutureId × Routine}
    (member : x ∈ tasks) (own : x.2.run? = some run) :
    focus.Concerns run ∨ ∃ o, w'.outcome? run = some o ∧ o < x.1 := by
  cases act
  case launched record _ _ outcome _ records =>
    obtain rfl := List.mem_singleton.mp member
    obtain rfl := Option.some.inj own
    refine .inr ⟨w.futures.size, ?_, Nat.lt_succ_self _⟩
    rw [outcome?, record?, records, Array.getElem?_push_size, Option.map_some, outcome]
  case watched scripts _ _ _ _ _ _ _ =>
    rcases List.mem_cons.mp member with rfl | member
    · exact .inl (.inl own)
    · cases (scripts x member).1.symm.trans own
  all_goals first
    | cases member; done
    | obtain rfl := List.mem_singleton.mp member; exact .inl (.inl own)

/-! ### Tasks and the runs they serve -/

structure Loyal (aim : FutureId → Aim) (w : World) : Prop where
  stands : ∀ t p waiting run, w.Stands t p waiting → p.Concerns run → (aim t).run? = some run
  focus : ∀ t run, w.focus.task? = some t → w.focus.Concerns run → (aim t).run? = some run
  known : ∀ t run, (aim t).run? = some run → ∃ o, w.outcome? run = some o ∧ o < t

theorem recorded_of_outcome {o : FutureId} (outcome : w.outcome? run = some o) : (w.record? run).isSome := by
  obtain ⟨r, there, -⟩ := Option.map_eq_some_iff.mp outcome
  rw [there]
  rfl

theorem Roles.outcome_lt (roles : w.Roles) {o : FutureId} (outcome : w.outcome? run = some o) :
    o < w.futures.size := kind?_lt (roles.outcomes run o outcome)

namespace Loyal

theorem fresh (h : w.Fresh) : Loyal (fun _ => .loose) w where
  stands _ _ _ _ there := absurd there.lt (by simp [h.futures])
  focus t run busy := by simp [h.focus, Focus.task?] at busy
  known _ _ own := by cases own

variable (loyal : Loyal aim w) (grown : Grown w w')
include loyal grown

theorem rests (rests : Rests tasks w w') (begins : ∀ x ∈ tasks, x.2.begins)
    (made : ∀ x ∈ tasks, w.futures.size ≤ x.1)
    (known : ∀ x ∈ tasks, ∀ run, x.2.run? = some run → ∃ o, w'.outcome? run = some o ∧ o < x.1)
    (focus : ∀ t run, w'.focus.task? = some t → w'.focus.Concerns run → (aims aim w w' t).run? = some run) :
    Loyal (aims aim w w') w' where
  stands t p waiting run there own := by
    rcases rests.stands t p waiting there with before | ⟨r, rfl, -, member⟩
    · rw [aims_old before.lt]
      exact loyal.stands t p waiting run before own
    · rw [aims_new (made _ member) there, Routine.run?_aim (begins _ member)]
      exact own
  focus := focus
  known t run own := by
    by_cases old : t < w.futures.size
    · rw [aims_old old] at own
      obtain ⟨o, outcome, later⟩ := loyal.known t run own
      exact ⟨o, grown.outcomes run o outcome, later⟩
    · rw [aims, if_neg old] at own
      split at own
      case h_1 r _ _ there =>
        rcases rests.stands t _ _ ⟨_, there⟩ with before | ⟨r', same, -, member⟩
        · exact absurd before.lt old
        · obtain rfl := Position.unstarted.inj same
          exact known _ member run (Routine.run?_of_aim own)
      case h_2 => cases own

theorem shifts (shifts : Shifts t p waiting w w') (started : ∀ r, p ≠ .unstarted r) (old : t < w.futures.size)
    (own : ∀ run, p.Concerns run → (aim t).run? = some run)
    (focus : ∀ t run, w'.focus.task? = some t → w'.focus.Concerns run → (aims aim w w' t).run? = some run) :
    Loyal (aims aim w w') w' where
  stands u q x run there concerns := by
    by_cases mine : u = t
    · subst mine
      obtain ⟨rfl, -⟩ := there.unique shifts.own
      rw [aims_old old]
      exact own run concerns
    · have before := (shifts.others u q x mine).mp there
      rw [aims_old before.lt]
      exact loyal.stands u q x run before concerns
  focus := focus
  known u run aimed := by
    by_cases before : u < w.futures.size
    · rw [aims_old before] at aimed
      obtain ⟨o, outcome, later⟩ := loyal.known u run aimed
      exact ⟨o, grown.outcomes run o outcome, later⟩
    · rw [aims, if_neg before] at aimed
      split at aimed
      case h_1 there =>
        have mine : u ≠ t := fun same => before (same ▸ old)
        exact absurd ((shifts.others u _ _ mine).mp ⟨_, there⟩).lt before
      case h_2 => cases aimed

end Loyal

theorem Loyal.move (loyal : Loyal aim w) (reached : Reachable plan w) (m : Move plan w w') :
    Loyal (aims aim w w') w' := by
  have sound := reached.sound
  have grown := m.grown sound.steady
  have lt {t : FutureId} (busy : w.focus.task? = some t) : t < w.futures.size :=
    (sound.tasks.focus t busy).2.lt
  cases m.turn sound with
  | @acted notes tasks w₁ next act rests =>
    refine loyal.rests grown (rests.congr rfl) act.effect.begins (fun x member => (act.effect.made x member).1)
      (fun x member run own => ?_) (fun t run busy own => ?_)
    · rcases act.assigns member own with concerns | known
      · obtain ⟨some, -⟩ := act.task
        obtain ⟨t, busy⟩ := Option.isSome_iff_exists.mp some
        obtain ⟨o, outcome, -⟩ := loyal.known t run (loyal.focus t run busy concerns)
        exact ⟨o, grown.outcomes run o outcome,
          Nat.lt_of_lt_of_le (sound.roles.outcome_lt outcome) (act.effect.made x member).1⟩
      · exact known
    · have same := busy
      rw [focusOn, act.task.2] at same
      rw [aims_old (lt same)]
      exact loyal.focus t run same (act.concerns own)
  | halted busy halts shifts same idle =>
    refine loyal.shifts grown shifts (fun _ => by simp) (lt (by rw [busy]; rfl)) (fun run own => ?_)
      (fun t run busy => by simp [idle, Focus.task?] at busy)
    exact loyal.focus _ run (by rw [busy]; rfl) (by rw [busy]; exact .inr own)
  | ended busy shifts value idle =>
    exact loyal.shifts grown shifts (fun _ => by simp) (lt (by rw [busy]; rfl)) (fun _ own => own.elim)
      (fun t run busy => by simp [idle, Focus.task?] at busy)
  | @resumed _ t p waiting o idle stood shifts same heard goesOn =>
    refine loyal.shifts grown shifts (fun _ => by simp) stood.lt (fun _ own => own.elim)
      (fun u run busy own => ?_)
    have : u = t ∧ p.Concerns run := by
      rcases goesOn with ⟨r, rfl, ⟨v, -, here⟩ | ⟨e, -, here⟩⟩ | ⟨stack, rfl, here⟩ <;>
        rw [here] at busy own <;> obtain rfl := Option.some.inj busy
      · exact ⟨rfl, own.resolve_right (stacks_nil run)⟩
      · exact absurd own (stacks_nil run)
      · exact ⟨rfl, own⟩
    obtain ⟨rfl, concerns⟩ := this
    rw [aims_old stood.lt]
    exact loyal.stands u p waiting run stood concerns
  | begun r caller =>
    have own : r.run? = none := by cases r <;> simp_all [Routine.isCaller, Routine.run?]
    refine loyal.rests grown (.newTask r) ?_ (by simp) ?_ (fun t run busy concerns => ?_)
    · refine List.forall_mem_singleton.mpr ?_
      cases r <;> simp_all [Routine.isCaller, Routine.begins]
    · refine List.forall_mem_singleton.mpr fun run there => ?_
      cases own.symm.trans there
    · rw [(newTask_sameRuns r).focus] at busy concerns
      rw [aims_old (lt busy)]
      exact loyal.focus t run busy concerns
  | rested rests focus =>
    refine loyal.rests grown rests (by simp) (by simp) (by simp) (fun t run busy concerns => ?_)
    rw [focus] at busy concerns
    rw [aims_old (lt busy)]
    exact loyal.focus t run busy concerns

/-- In every reachable state all tasks go on to the aims that they began with, and serve the runs that
these are about. -/
theorem Reachable.loyal (reached : Reachable plan w) (compiled : plan.tree.Compiled) :
    ∃ aim, Ordered plan aim w ∧ Loyal aim w := by
  induction reached with
  | fresh fresh => exact ⟨_, .fresh fresh, .fresh fresh⟩
  | move before m ih =>
    obtain ⟨aim, ordered, loyal⟩ := ih
    exact ⟨_, ordered.move before compiled m, loyal.move before m⟩

end World

end Conductor
