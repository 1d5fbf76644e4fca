import Conductor.Proofs.Since

/-!
# Wake-ups

No wake-up is lost. A task that has not begun stands in the queue; one that waits for a future is told
of its end; a joint future is told of the end of each child that it has not counted, and it is settled
once it has counted all. Only the closing of a loop takes such jobs away.
-/

namespace Conductor.World

variable {w w' : World} {f g t b c : FutureId} {s : Settlement} {j : Job} {notes : List Note}
  {tasks : List (FutureId × Routine)} {plan : Plan} {p : Position} {waiting : Option FutureId}
  {children : List FutureId} {ended : Nat}

theorem Grown.pending (grown : Grown w w') (pending : w'.settlement? f = none) : w.settlement? f = none := by
  by_contra past
  obtain ⟨s, past⟩ := Option.ne_none_iff_exists'.mp past
  cases (grown.settlements f s past).symm.trans pending

/-! ### The queue -/

theorem ready_post (loop : Nat) (j : Job) : w.agenda.ready <+: (w.post loop j).agenda.ready := by
  unfold World.post
  split
  · exact List.prefix_append _ _
  · split <;> exact List.prefix_refl _

theorem ready_settle (f : FutureId) (s : Settlement) : w.agenda.ready <+: (w.settle f s).agenda.ready := by
  unfold World.settle
  split
  · split
    · exact List.prefix_refl _
    · rw [postAll_agenda]
      split
      · exact List.prefix_append _ _
      · split <;> exact List.prefix_refl _
  · exact List.prefix_refl _

theorem ready_onSettled (f : FutureId) (j : Job) : w.agenda.ready <+: (w.onSettled f j).agenda.ready := by
  unfold World.onSettled
  split
  · split
    · exact ready_post _ _
    · exact List.prefix_refl _
  · exact List.prefix_refl _

theorem Motion.ready (m : Motion w w') : w.agenda.ready <+: w'.agenda.ready := by
  induction m with
  | still _ _ ready _ _ => exact ready ▸ List.prefix_refl _
  | posted loop _ => exact ready_post loop _
  | scheduled ticks _ => exact List.prefix_refl _
  | made purpose => exact List.prefix_refl _
  | settled f s => exact ready_settle f s
  | called _ _ => exact ready_onSettled _ _
  | repurposed f p => exact List.prefix_refl _
  | trans _ _ ih ih' => exact ih.trans ih'

theorem ready_beginTurn : w.agenda.ready <+: w.beginTurn.agenda.ready := List.prefix_append _ _

/-- While the loop stays the running one, its queue only grows at its end, apart from the job that is
run. -/
theorem Move.queue (sound : w.Sound) (m : Move plan w w') (same : w'.agenda.loop = w.agenda.loop) :
    w.agenda.ready <+: w'.agenda.ready ∨
      ∃ j w₁, w.focus = .idle ∧ w.nextJob? = some (j, w₁) ∧ w' = w₁.runJob plan j ∧
        w.agenda.ready = j :: w₁.agenda.ready ∧ w₁.agenda.ready <+: w'.agenda.ready := by
  cases m with
  | stepped stepped =>
    cases step_stepped sound.steady stepped with
    | acted act => exact .inl ((Motion.effect act.effect).trans (.focusOn _)).ready
    | suspended busy pending => exact .inl (Motion.handover (.suspended busy pending)).ready
    | yielded busy => exact .inl (Motion.handover (.yielded busy)).ready
    | ended busy => exact .inl (Motion.handover (.ended busy)).ready
    | @handled k w₁ idle next =>
      refine .inr ⟨k, w₁, idle, next, rfl, ?_, (Motion.handled (sound.steady.handled next)).ready⟩
      obtain ⟨_, _, ready, rfl⟩ := nextJob_cases next
      exact ready
    | turned idle next =>
      obtain ⟨n, -, rfl⟩ := nextTurn_cases next
      exact .inl (ready_beginTurn (w := { w with clock := n }))
  | supplied _ => exact .inl (List.prefix_refl _)
  | called r _ => exact .inl (Motion.newTask r).ready
  | observed f => exact .inl (ready_onSettled _ _)
  | cleared => exact .inl (List.prefix_refl _)
  | cancelled f => exact .inl (Motion.interrupted (cancel_interrupted f)).ready
  | turned => exact .inl ready_beginTurn
  | opened n main other new => exact absurd (same.trans main) other
  | closed alone => exact absurd same.symm alone

/-! ### Jobs that let tasks go on -/

/-- A task that is told to go on does so, unless it has ended or is at work. -/
theorem resumeTask_active (stood : w.Stands t p waiting) (rest : p ≠ .active) (pending : w.settlement? t = none)
    (o : Outcome) : (w.resumeTask t o).Stands t .active none := by
  obtain ⟨m, own⟩ := stood
  obtain ⟨x, found, purpose⟩ := Option.map_eq_some_iff.mp own
  have settled : x.settled = none := (settlement?_of_future? found).symm.trans pending
  have active : (w.activate t).Stands t .active none := ⟨false, (Tasks.purpose?_activate ⟨m, own⟩).trans (if_pos rfl)⟩
  obtain ⟨loop, settled', callbacks, purpose'⟩ := x
  dsimp only at settled purpose
  subst settled purpose
  obtain ⟨o', n, same, -⟩ := wakeUp_cases (w := w) t m o
  have active' : ∀ f, (((w.activate t).raisedTo n).focusOn f).Stands t .active none := fun _ => active
  unfold resumeTask
  rw [found]
  cases p with
  | active => exact absurd rfl rest
  | unstarted r =>
    dsimp only
    rw [same]
    cases o' <;> exact active' _
  | suspended stack =>
    dsimp only
    rw [same]
    exact active' _

theorem runJob_activates (sound : w.Sound) {w₁ : World} (next : w.nextJob? = some (j, w₁)) (signal : j.signals t)
    (pending : w.settlement? t = none) : (w₁.runJob plan j).Stands t .active none := by
  have there := mem_jobs_of_next next
  have futures := nextJob_futures next
  obtain ⟨p, waiting, rest, stood⟩ := (sound.tasks.expects j there t signal).stands
  have stood' : w₁.Stands t p waiting := (stands_congr (purpose?_congr futures)).mpr stood
  have pending' : w₁.settlement? t = none := (settlement?_congr futures).trans pending
  cases j with
  | resume u =>
    obtain rfl : u = t := by simpa [Job.signals] using signal
    exact resumeTask_active stood' rest pending' _
  | wake u f =>
    obtain rfl : u = t := by simpa [Job.signals] using signal
    obtain ⟨s, settled⟩ := sound.lanes.taken next (f := f) rfl
    have same := (settlement?_congr futures).trans settled
    have delivered := deliver_futures (w := w₁) s
    simp only [runJob, same]
    exact resumeTask_active ((stands_congr (purpose?_congr delivered)).mpr stood') rest
      ((settlement?_congr delivered).trans pending') _
  | _ => cases signal

/-! ### What is new -/

theorem purpose?_newJoint (chains : List FutureId) : (w.newJoint chains).2.purpose? g =
    if g = w.futures.size then some (.joint chains 0 false) else w.purpose? g := by
  rw [← purpose?_newFuture (w := w)]
  unfold World.newJoint
  dsimp only
  split
  · exact purpose?_settle
  · exact (Adds.registered chains _ _).2.1 g

/-- Whether all that a change has made is provided for: new tasks stand in the queue, new joint futures
are told of the ends of their children, and those who wait for a body are freed by its end. -/
structure Provides (w w' : World) : Prop where
  tasks : ∀ t r waiting, w.futures.size ≤ t → w'.Stands t (.unstarted r) waiting → .resume t ∈ w'.agenda.ready
  joints : ∀ g children ended, w.futures.size ≤ g → w'.Joins g children ended → w'.settlement? g = none →
    children.Nodup ∧ ended < children.length ∧ ∀ c ∈ children, .childEnded g c ∈ w'.jobs ∨ w'.Frozen c
  waiters : ∀ g b, w.futures.size ≤ g → b < g → w'.kind? g = some (.plain (.waiter b)) →
    .release g b ∈ w'.jobs ∨ w'.Frozen b

namespace Provides

theorem plain (kinds : ∀ g k, w.futures.size ≤ g → w'.kind? g = some k →
    k ≠ .task ∧ (∀ cs, k ≠ .joint cs) ∧ ∀ b, k ≠ .plain (.waiter b)) : Provides w w' where
  tasks t r waiting new stands := by
    obtain ⟨m, own⟩ := stands
    exact absurd rfl (kinds t _ new (kind?_of_purpose? own)).1
  joints g children ended new joins _ := by
    obtain ⟨requested, own⟩ := joins
    exact absurd rfl ((kinds g _ new (kind?_of_purpose? own)).2.1 children)
  waiters g b new _ own := absurd rfl ((kinds g _ new own).2.2 b)

theorem of_size (size : w'.futures.size = w.futures.size) : Provides w w' :=
  plain fun _ _ new own => absurd (size ▸ kind?_lt own) (Nat.not_lt.mpr new)

theorem of_futures (futures : w'.futures = w.futures) : Provides w w' := of_size (by rw [futures])

theorem newPlain {role : Role} (other : ∀ b, role ≠ .waiter b) : Provides w (w.newFuture (.plain role)).2 := by
  refine plain fun g k new own => ?_
  obtain ⟨q, there, rfl⟩ := Option.map_eq_some_iff.mp own
  rw [purpose?_newFuture] at there
  split at there
  · obtain rfl := Option.some.inj there
    exact ⟨by simp [Purpose.kind], by simp [Purpose.kind], by simpa [Purpose.kind] using other⟩
  · exact absurd (purpose?_lt there) (Nat.not_lt.mpr new)

theorem congr {w₁ : World} (h : Provides w w₁) (futures : w'.futures = w₁.futures)
    (agenda : w'.agenda = w₁.agenda) : Provides w w' := by
  have frozen {f : FutureId} (closed : w₁.Frozen f) : w'.Frozen f := by
    obtain ⟨n, loop, away, other⟩ := closed
    exact ⟨n, (loop?_congr futures).trans loop, away, agenda ▸ other⟩
  have same := jobs_congr futures agenda
  refine ⟨fun t r waiting new stands => ?_, fun g children ended new joins pending => ?_,
    fun g b new old own => ?_⟩
  · exact agenda ▸ h.tasks t r waiting new ((stands_congr (purpose?_congr futures)).mp stands)
  · obtain ⟨distinct, short, told⟩ := h.joints g children ended new
      ((joins_congr (purpose?_congr futures)).mp joins) ((settlement?_congr futures).symm.trans pending)
    exact ⟨distinct, short, fun c member => same ▸ (told c member).imp_right frozen⟩
  · exact same ▸ (h.waiters g b new old ((kind?_congr futures g).symm.trans own)).imp_right frozen

theorem congr_left {w₁ : World} (h : Provides w₁ w') (futures : w₁.futures = w.futures) : Provides w w' where
  tasks t r waiting new := h.tasks t r waiting (futures ▸ new)
  joints g children ended new := h.joints g children ended (futures ▸ new)
  waiters g b new := h.waiters g b (futures ▸ new)

theorem trans {w₁ w₂ w₃ : World} (h : Provides w₁ w₂) (h' : Provides w₂ w₃) (keeps : Keeps w₂ w₃)
    (ready : w₂.agenda.ready <+: w₃.agenda.ready) (grown : Grown w₂ w₃)
    (purposes : ∀ f p, w₂.purpose? f = some p → w₃.purpose? f = some p) : Provides w₁ w₃ := by
  have back {f : FutureId} (old : f < w₂.futures.size) : w₃.purpose? f = w₂.purpose? f := by
    obtain ⟨p, own⟩ := purpose?_isSome old
    exact (purposes f p own).trans own.symm
  have frozen {j : Job} {f : FutureId} (source : j.source? = some f) (there : j ∈ w₂.jobs ∨ w₂.Frozen f) :
      j ∈ w₃.jobs ∨ w₃.Frozen f :=
    there.elim (fun there => keeps.jobs j there f source) fun closed => .inr (keeps.frozen closed)
  refine ⟨fun t r waiting new stands => ?_, fun g children ended new joins pending => ?_,
    fun g b new old own => ?_⟩
  · by_cases old : t < w₂.futures.size
    · exact ready.subset (h.tasks t r waiting new ((stands_congr (back old)).mp stands))
    · exact h'.tasks t r waiting (Nat.le_of_not_lt old) stands
  · by_cases old : g < w₂.futures.size
    · obtain ⟨distinct, short, told⟩ :=
        h.joints g children ended new ((joins_congr (back old)).mp joins) (grown.pending pending)
      exact ⟨distinct, short, fun c member => frozen rfl (told c member)⟩
    · exact h'.joints g children ended (Nat.le_of_not_lt old) joins pending
  · by_cases there : g < w₂.futures.size
    · exact frozen rfl (h.waiters g b new old (grown.kind_of_lt there own))
    · exact h'.waiters g b (Nat.le_of_not_lt there) old own

theorem scripted (h : Scripted w w') : Provides w w' := by
  suffices timed : ∀ g k, w.futures.size ≤ g → w'.kind? g = some k → k = .plain .timed from
    plain fun g k new own => by simp [timed g k new own]
  have made (w : World) (g : FutureId) (k : Kind) (new : w.futures.size ≤ g)
      (own : (w.newFuture (.plain .timed)).2.kind? g = some k) : k = .plain .timed := by
    obtain ⟨q, there, rfl⟩ := Option.map_eq_some_iff.mp own
    rw [purpose?_newFuture] at there
    split at there
    · obtain rfl := Option.some.inj there
      rfl
    · exact absurd (purpose?_lt there) (Nat.not_lt.mpr new)
  have none {w w' : World} (size : w'.futures.size = w.futures.size) (g : FutureId) (k : Kind)
      (new : w.futures.size ≤ g) (own : w'.kind? g = some k) : k = .plain .timed :=
    absurd (size ▸ kind?_lt own) (Nat.not_lt.mpr new)
  induction h with
  | aside _ futures _ _ => exact none (by rw [futures])
  | reported _ _ _ => exact none size_settle
  | postponed _ _ _ => exact none rfl
  | queued _ _ => exact none (size_post _)
  | @made w => exact made w
  | @timed w _ _ => exact made w
  | @settled w w' s _ _ futures _ _ =>
    intro g k new own
    refine made w g k new ?_
    rw [← own, kind?, kind?, purpose?_settle, purpose?_congr futures]
  | trans first second ih ih' =>
    intro g k new own
    rename_i w₂ _
    by_cases old : g < w₂.futures.size
    · exact ih g k new ((Grown.scripted second).kind_of_lt old own)
    · exact ih' g k (Nat.le_of_not_lt old) own

theorem newTask (r : Routine) : Provides w (w.newTask r).2 := by
  have queued : .resume w.futures.size ∈ (w.newTask r).2.agenda.ready := by
    simp [World.newTask, World.post, newFuture]
  have latest {g : FutureId} {q : Purpose} (new : w.futures.size ≤ g)
      (own : (w.newTask r).2.purpose? g = some q) : g = w.futures.size ∧ q = .task (.unstarted r) none false := by
    rw [purpose?_newTask] at own
    split at own
    · rename_i mine
      exact ⟨mine, (Option.some.inj own).symm⟩
    · exact absurd (purpose?_lt own) (Nat.not_lt.mpr new)
  refine ⟨fun t r' waiting new stands => ?_, fun g children ended new joins _ => ?_, fun g b new old own => ?_⟩
  · obtain ⟨m, own⟩ := stands
    exact (latest new own).1 ▸ queued
  · obtain ⟨requested, own⟩ := joins
    cases (latest new own).2
  · cases (latest new (plain_of_kind? own)).2

theorem registered (l : List FutureId) (w : World) (lanes : w.Lanes) (g : FutureId)
    (known : ∀ c ∈ l, c < w.futures.size) (c : FutureId) (member : c ∈ l) :
    .childEnded g c ∈ (l.foldl (fun w child => w.onSettled child (.childEnded g child)) w).jobs ∨
      (l.foldl (fun w child => w.onSettled child (.childEnded g child)) w).Frozen c := by
  induction l generalizing w with
  | nil => cases member
  | cons d rest ih =>
    have first : Motion w (w.onSettled d (.childEnded g d)) :=
      .asked (fun _ same => (Option.some.inj same).symm) (by simp [Job.IsNotice])
    have kept : Keeps (w.onSettled d (.childEnded g d)) _ :=
      .motion (lanes.motion first) (.registered rest _ g)
    obtain ⟨this, others⟩ := List.forall_mem_cons.mp known
    rcases List.mem_cons.mp member with rfl | later
    · rcases onSettled_waits (j := .childEnded g c) this with there | closed
      · exact kept.jobs _ there c rfl
      · exact .inr (kept.frozen closed)
    · exact ih _ (lanes.motion first) (fun x there => size_onSettled (w := w) ▸ others x there) later

theorem newJoint {chains : List FutureId} (lanes : w.Lanes) (distinct : chains.Nodup)
    (known : ∀ c ∈ chains, c < w.futures.size) : Provides w (w.newJoint chains).2 where
  tasks t r waiting new stands := by
    obtain ⟨m, own⟩ := stands
    rw [purpose?_newJoint] at own
    split at own
    · cases own
    · exact absurd (purpose?_lt own) (Nat.not_lt.mpr new)
  joints g children ended new joins pending := by
    obtain ⟨requested, own⟩ := joins
    rw [purpose?_newJoint] at own
    split at own
    case isTrue mine =>
      obtain ⟨rfl, rfl, rfl⟩ := by simpa using own
      subst mine
      unfold World.newJoint at pending ⊢
      dsimp only at pending ⊢
      split at pending
      · have there : w.futures.size < (w.newFuture (.joint chains 0 false)).2.futures.size :=
          size_newFuture (w := w) _ ▸ Nat.lt_succ_self _
        obtain ⟨x, found⟩ := future?_isSome there
        cases (settlement?_settle_self (s := .value .nothing) found).symm.trans pending
      · rename_i some
        rw [if_neg some]
        have grown := Grown.newFuture (w := w) (.joint chains 0 false)
        refine ⟨distinct, List.length_pos_iff.mpr fun none => some (by rw [none]; rfl), fun c member => ?_⟩
        exact registered chains _ (lanes.newFuture _) w.futures.size (fun x there => grown.known (known x there)) c
          member
    case isFalse => exact absurd (purpose?_lt own) (Nat.not_lt.mpr new)
  waiters g b new _ own := by
    obtain ⟨q, there, same⟩ := Option.map_eq_some_iff.mp own
    rw [purpose?_newJoint] at there
    split at there
    · obtain rfl := Option.some.inj there
      cases same
    · exact absurd (purpose?_lt there) (Nat.not_lt.mpr new)

theorem waited (f : FutureId) :
    Provides w ((w.newFuture (.plain (.waiter f))).2.onSettled f (.release w.futures.size f)) where
  tasks t r waiting new stands := by
    obtain ⟨m, own⟩ := stands
    rw [purpose?_onSettled, purpose?_newFuture] at own
    split at own
    · cases own
    · exact absurd (purpose?_lt own) (Nat.not_lt.mpr new)
  joints g children ended new joins _ := by
    obtain ⟨requested, own⟩ := joins
    rw [purpose?_onSettled, purpose?_newFuture] at own
    split at own
    · cases own
    · exact absurd (purpose?_lt own) (Nat.not_lt.mpr new)
  waiters g b new old own := by
    obtain ⟨q, there, same⟩ := Option.map_eq_some_iff.mp own
    rw [purpose?_onSettled, purpose?_newFuture] at there
    split at there
    case isTrue mine =>
      obtain rfl := Option.some.inj there
      obtain rfl : f = b := by simpa [Purpose.kind] using same
      subst mine
      exact onSettled_waits ((Grown.newFuture (w := w) _).known old)
    case isFalse => exact absurd (purpose?_lt there) (Nat.not_lt.mpr new)

end Provides

theorem Effect.provides (roles : w.Roles) (lanes : w.Lanes) (e : Effect notes tasks w w') :
    Provides w w' := by
  induction e with
  | kept d => exact .of_futures d.loop.futures
  | scripted done => exact .scripted done
  | described d =>
    obtain ⟨r, -, same⟩ | same := newCompletion_cases (d := d) <;> rw [same]
    · exact .of_futures rfl
    · exact (Provides.newPlain (by simp : ∀ b, Role.report ≠ .waiter b)).congr rfl rfl
  | recorded _ _ _ =>
    have other (run : RunId) : ∀ b, Role.outcome run ≠ .waiter b := by simp
    exact (Provides.newPlain (other _)).congr rfl rfl
  | tasked r _ => exact .newTask r
  | @watched w f run node _ _ _ => exact .of_size (size_onSettled (w := w.note run (.began node.head (some f))))
  | joined distinct known => exact .newJoint lanes distinct known
  | waited f => exact .waited f
  | @concluded w run _ s _ _ _ _ =>
    exact (Provides.of_size size_settle).congr_left (setStatus_loop (w := w) run s).futures
  | failed _ _ _ _ => exact .of_size size_settle
  | trans first second ih ih' =>
    have roles' := (roles.effect first).1
    have lanes' := lanes.motion (.effect first)
    obtain ⟨-, new, adds⟩ := roles'.effect second
    exact (ih roles lanes).trans (ih' roles' lanes') (.motion lanes' (.effect second)) (Motion.effect second).ready
      (.effect second) adds.purposes

/-! ### Moves -/

theorem size_repurpose (f : FutureId) (p : Purpose) : (w.repurpose f p).futures.size = w.futures.size :=
  Array.size_modify

theorem size_setPosition (t : FutureId) (p : Position) (waiting : Option FutureId) :
    (w.setPosition t p waiting).futures.size = w.futures.size := by
  unfold setPosition
  split
  · exact size_repurpose _ _
  · rfl

theorem size_interrupted (i : Interrupted w w') : w'.futures.size = w.futures.size := by
  induction i with
  | refl _ => rfl
  | settled _ => exact size_settle
  | asked _ => exact size_repurpose _ _
  | told _ => exact size_repurpose _ _
  | trans _ _ ih ih' => exact ih'.trans ih

theorem size_resumeTask (t : FutureId) (o : Outcome) : (w.resumeTask t o).futures.size = w.futures.size := by
  obtain same | ⟨_, _, _, _, _, _, -, -, -, same, -⟩ := resumeTask_cases (w := w) t o <;> rw [same]
  exact size_repurpose _ _

theorem size_childEnded (g c : FutureId) : (w.childEnded g c).futures.size = w.futures.size := by
  obtain same | ⟨_, _, _, _, _, -, -, result⟩ := childEnded_cases (w := w) g c
  · rw [same]
  · obtain ⟨same, -⟩ | ⟨s', same, -, -⟩ := result _ rfl <;> rw [same]
    · exact size_repurpose _ _
    · exact size_settle.trans (size_repurpose _ _)

/-- A task comes to stand elsewhere, and joint futures stay as they are. -/
theorem Shifts.joins (shifts : Shifts t p waiting w w') (joins : w'.Joins g children ended) :
    w.Joins g children ended := by
  by_cases mine : g = t
  · subst mine
    obtain ⟨m, own⟩ := shifts.own
    obtain ⟨requested, there⟩ := joins
    cases own.symm.trans there
  · exact (joins_congr (shifts.purposes g mine)).mp joins

theorem Move.provides (sound : w.Sound) (m : Move plan w w') : Provides w w' := by
  cases m with
  | stepped stepped =>
    cases step_stepped sound.steady stepped with
    | acted act => exact (act.effect.provides sound.roles sound.lanes).congr rfl rfl
    | suspended busy _ => exact .of_size (size_onSettled.trans (size_setPosition _ _ _))
    | yielded busy => exact .of_size ((size_post _).trans (size_setPosition _ _ _))
    | ended busy =>
      obtain ⟨s, same, -, -⟩ := endTask_cases (w := w) _ _
      rw [same]
      exact .of_size (size_settle.trans (size_setPosition _ _ _))
    | @handled j w₁ idle next =>
      have futures := nextJob_futures next
      have roles := sound.roles.of_nextJob next
      have lanes := sound.lanes.nextJob next
      refine Provides.congr_left ?_ futures
      have rest : Handled j w₁ (w₁.runJob plan j) := sound.steady.handled next
      generalize w₁.runJob plan j = w' at rest ⊢
      cases rest with
      | effect e _ => exact e.provides roles lanes
      | resumed => exact .of_size (size_resumeTask _ _)
      | woken _ => exact .of_size ((size_resumeTask _ _).trans (by rw [deliver_futures]))
      | counted => exact .of_size (size_childEnded _ _)
      | freed => exact .of_size size_settle
      | matured n _ => exact .of_size size_settle
      | stopped => exact .of_futures rfl
    | turned idle next =>
      obtain ⟨_, -, rfl⟩ := nextTurn_cases next
      exact .of_futures rfl
  | called r _ => exact .newTask r
  | observed f => exact .of_size size_onSettled
  | cancelled f => exact .of_size (size_interrupted (cancel_interrupted f))
  | supplied _ | cleared | turned | opened _ _ _ _ | closed _ => exact .of_futures rfl

theorem resumeTask_joins {o : Outcome} (joins : (w.resumeTask t o).Joins g children ended) :
    w.Joins g children ended := by
  obtain same | ⟨p, waiting, m, f, n, o', -, own, -, same, -⟩ := resumeTask_cases (w := w) t o <;>
    rw [same] at joins
  · exact joins
  · exact (Shifts.activate ⟨m, own⟩).joins joins

theorem childEnded_joins {g' : FutureId} (joins : (w.childEnded g' c).Joins g children ended) :
    w.Joins g children ended ∨ g' = g ∧ ∃ k, w.Joins g children k ∧ ended = k + 1 := by
  obtain same | ⟨cs, k, requested, s, n, -, own, result⟩ := childEnded_cases (w := w) g' c
  · exact .inl (same ▸ joins)
  · have counted : (w.repurpose g' (.joint cs (k + 1) requested)).Joins g children ended := by
      obtain ⟨same, -⟩ | ⟨s', same, -, -⟩ := result _ rfl <;> rw [same] at joins
      · exact joins
      · exact (joins_congr (w := (w.repurpose g' (.joint cs (k + 1) requested)).raisedTo n) purpose?_settle).mp joins
    by_cases mine : g = g'
    · subst mine
      obtain ⟨requested', there⟩ := counted
      rw [purpose?_repurpose, if_pos rfl, own] at there
      obtain ⟨rfl, rfl, rfl⟩ := by simpa using there
      exact .inr ⟨rfl, k, ⟨requested, own⟩, rfl⟩
    · exact .inl ((joins_congr (by rw [purpose?_repurpose, if_neg mine])).mp counted)

theorem Move.joins (sound : w.Sound) (m : Move plan w w') (old : g < w.futures.size)
    (joins : w'.Joins g children ended) :
    w.Joins g children ended ∨ ∃ c w₁ k, w.nextJob? = some (.childEnded g c, w₁) ∧
      w' = w₁.childEnded g c ∧ w.Joins g children k ∧ ended = k + 1 := by
  obtain ⟨p, own⟩ := purpose?_isSome old
  have back (same : w'.purpose? g = w.purpose? g) : w.Joins g children ended := (joins_congr same).mp joins
  have moved {t : FutureId} (q : Position) (waiting : Option FutureId) (busy : w.focus.task? = some t)
      (there : (w.setPosition t q waiting).Joins g children ended) : w.Joins g children ended :=
    (Shifts.setPosition (sound.tasks.focus t busy).2).joins there
  cases m with
  | stepped stepped =>
    cases step_stepped sound.steady stepped with
    | acted act =>
      obtain ⟨-, new, adds⟩ := sound.roles.effect act.effect
      exact .inl ((joins_congr ((adds.purposes g p own).trans own.symm)).mp joins)
    | @suspended t f stack busy pending =>
      refine .inl (moved (.suspended stack) (some f) (by rw [busy]; rfl) ?_)
      exact (joins_congr (w := w.setPosition t (.suspended stack) (some f)) purpose?_onSettled).mp joins
    | @yielded t stack busy =>
      refine .inl (moved (.suspended stack) none (by rw [busy]; rfl) ?_)
      exact (joins_congr (w := w.setPosition t (.suspended stack) none) (purpose?_post _)).mp joins
    | @ended t o busy =>
      obtain ⟨s, same, -, -⟩ := endTask_cases (w := w) t o
      rw [same] at joins
      refine .inl (moved .active none (by rw [busy]; rfl) ?_)
      exact (joins_congr (w := w.setPosition t .active none) purpose?_settle).mp joins
    | @handled j w₁ idle next =>
      have futures := nextJob_futures next
      have before : w₁.Joins g children ended → w.Joins g children ended :=
        (joins_congr (purpose?_congr futures)).mp
      have rest : Handled j w₁ (w₁.runJob plan j) := sound.steady.handled next
      generalize w₁.runJob plan j = w' at rest joins ⊢
      cases rest with
      | effect e _ =>
        obtain ⟨-, new, adds⟩ := (sound.roles.of_nextJob next).effect e
        have own' := (purpose?_congr futures).trans own
        exact .inl (before ((joins_congr ((adds.purposes g p own').trans own'.symm)).mp joins))
      | resumed => exact .inl (before (resumeTask_joins joins))
      | @woken t f _ s settled =>
        refine .inl (before ((joins_congr (purpose?_congr (deliver_futures s))).mp (resumeTask_joins joins)))
      | @counted g' c =>
        rcases childEnded_joins joins with same | ⟨rfl, k, mine, more⟩
        · exact .inl (before same)
        · exact .inr ⟨c, w₁, k, next, rfl, (joins_congr (purpose?_congr futures)).mp mine, more⟩
      | freed => exact .inl (before ((joins_congr purpose?_settle).mp joins))
      | matured n _ => exact .inl (before ((joins_congr (w := w₁.raisedTo n) purpose?_settle).mp joins))
      | stopped => exact .inl (before joins)
    | turned idle next =>
      obtain ⟨_, -, rfl⟩ := nextTurn_cases next
      exact .inl joins
  | called r _ => exact .inl (back ((purpose?_newTask r).trans (if_neg (Nat.ne_of_lt old))))
  | observed f => exact .inl (back purpose?_onSettled)
  | cancelled f =>
    obtain ⟨p', own', agrees⟩ := (cancel_interrupted f).purpose? own
    obtain ⟨requested, there⟩ := joins
    obtain rfl := Option.some.inj (own'.symm.trans there)
    cases p with
    | joint cs k asked =>
      obtain ⟨rfl, rfl⟩ := agrees
      exact .inl ⟨asked, own⟩
    | _ => exact agrees.elim
  | supplied _ | cleared | turned | opened _ _ _ _ | closed _ => exact .inl (back rfl)

theorem childEnded_self (joins : w.Joins g children ended) (settled : w.settlement? c = some s) :
    (w.childEnded g c).Joins g children (ended + 1) := by
  obtain ⟨requested, own⟩ := joins
  obtain ⟨x, found, purpose⟩ := Option.map_eq_some_iff.mp own
  have counted : (w.repurpose g (.joint children (ended + 1) requested)).Joins g children (ended + 1) :=
    ⟨requested, by rw [purpose?_repurpose, if_pos rfl, own]; rfl⟩
  have kept {w' : World} {s' : Settlement}
      (futures : w'.futures = (w.repurpose g (.joint children (ended + 1) requested)).futures) :
      (w'.settle g s').Joins g children (ended + 1) :=
    (joins_congr (purpose?_settle.trans (purpose?_congr futures))).mpr counted
  unfold childEnded
  rw [found, settled]
  simp only [purpose]
  split
  · exact counted
  · cases s with
    | value v =>
      dsimp only
      split
      · exact counted
      · split
        · exact kept rfl
        · exact kept rfl
    | failed e => exact kept rfl
    | cancelled e =>
      dsimp only
      have futures := deliver_futures (w := w.repurpose g (.joint children (ended + 1) requested)) (.cancelled e)
      split
      · rename_i same
        rw [same] at futures
        exact kept futures
      · rename_i same
        rw [same] at futures
        exact (joins_congr (purpose?_congr futures)).mpr counted

/-- A joint future that stays pending when a child ends has others to wait for. -/
theorem childEnded_pending (joins : w.Joins g children ended) (settled : w.settlement? c = some s)
    (pending : (w.childEnded g c).settlement? g = none) : ended + 1 < children.length := by
  obtain ⟨_, there⟩ := childEnded_self joins settled
  obtain ⟨requested, own⟩ := joins
  have before := (Grown.childEnded (w := w) g c).pending pending
  obtain same | ⟨cs, k, asked, s', n, -, own', result⟩ := childEnded_cases (w := w) g c
  · rw [same, own] at there
    simp at there
  · obtain ⟨rfl, rfl, rfl⟩ := by simpa using own.symm.trans own'
    obtain ⟨same, more⟩ | ⟨s'', same, -, -⟩ := result _ rfl
    · exact (more before).2
    · rw [same] at pending
      have counted : (w.repurpose g (.joint children (ended + 1) requested)).purpose? g ≠ none := by
        rw [purpose?_repurpose, if_pos rfl, own]
        simp
      obtain ⟨x, found, -⟩ := Option.map_eq_some_iff.mp (Option.ne_none_iff_exists'.mp counted).choose_spec
      cases (settlement?_settle_self (w := (w.repurpose g _).raisedTo n) (s := s'') found).symm.trans pending

/-! ### Reachable states -/

def Waiting (w : World) (t f : FutureId) (stack : List Frame) : Prop :=
  w.focus = .enter t (.wait f) stack ∨ w.Stands t (.suspended stack) (some f)

theorem Move.waits (sound : w.Sound) (m : Move plan w w') {stack : List Frame} (waits : w'.Waiting t f stack) :
    w.Waiting t f stack ∨ ∃ notes tasks w₁, Act plan w w.focus notes tasks w₁ (.enter t (.wait f) stack) ∧
      w' = w₁.focusOn (.enter t (.wait f) stack) := by
  rcases waits with here | stood
  · obtain acts | old | ⟨_, -, stood⟩ := m.entered sound here
    · exact .inr acts
    · exact .inl (.inl old)
    · cases sound.tasks.begins t _ _ stood
  · cases m.came sound stood with
    | stood there => exact .inl (.inr there)
    | halted busy halts _ _ =>
      obtain ⟨_, rfl, same⟩ | ⟨-, other⟩ := halts
      · obtain rfl := Option.some.inj same
        exact .inl (.inl busy)
      · cases other

/-- Whether no wake-up is lost but with a loop that is closed. -/
structure Wakes (w : World) : Prop where
  unstarted : ∀ t r waiting, w.Stands t (.unstarted r) waiting → waiting = none
  active : ∀ t waiting, w.Stands t .active waiting → w.settlement? t = none → w.focus.task? = some t
  known : ∀ t f stack, w.Waiting t f stack → f < w.futures.size
  waits : ∀ t stack f, w.Stands t (.suspended stack) (some f) → w.settlement? t = none →
    .wake t f ∈ w.jobs ∨ w.Frozen f
  counts : ∀ g children ended, w.Joins g children ended → w.settlement? g = none →
    children.Nodup ∧ ended < children.length ∧ ∃ done : List FutureId, done.length ≤ ended ∧
      ∀ c ∈ children, c ∈ done ∨ .childEnded g c ∈ w.jobs ∨ w.Frozen c
  frees : ∀ g b, b < g → w.kind? g = some (.plain (.waiter b)) → w.settlement? g = none →
    .release g b ∈ w.jobs ∨ w.Frozen b

theorem Plays.waits_known {stack stack' : List Frame} {next : Focus} (plays : Plays w t stack next)
    (same : next = .enter t (.wait f) stack') : f < w.futures.size := by
  cases plays with
  | left _ => cases same
  | entered r frames own foreign waits =>
    exact purpose?_lt (waits f (Focus.enter.inj same).2.1).1

theorem Lost.waits {run : RunId} {h : Head} {e : Raised} {pre : List Note} {stack stack' : List Frame}
    {next : Focus} {u : FutureId} (lost : Lost run h e pre t stack w notes w' next) :
    next ≠ .enter u (.wait f) stack' := by
  cases lost
  simp

theorem Finished.waits {run : RunId} {call : Call} {body : Option FutureId} {pre : List Note}
    {stack stack' : List Frame} {next : Focus} {u : FutureId}
    (finished : Finished plan run call body pre t stack w notes w' next) :
    next ≠ .enter u (.wait f) stack' := by
  cases finished with
  | lost lost => exact lost.waits
  | moot _ _ => simp
  | followed _ _ _ _ => simp

theorem Act.waits_known {stack : List Frame} {focus : Focus} {next : Focus} (roles : w.Roles)
    (act : Act plan w focus notes tasks w' next) (same : next = .enter t (.wait f) stack) : f < w'.futures.size := by
  have mine : focus.task? = some t := by
    rw [← act.task.2, same]
    rfl
  cases act with
  | played _ _ _ plays =>
    obtain rfl := Option.some.inj mine
    exact plays.waits_known same
  | replayed _ _ plays =>
    obtain rfl := Option.some.inj mine
    exact plays.waits_known same
  | launched _ _ effect records running outcome =>
    obtain ⟨-, ⟨⟩, -⟩ := by simpa using same
    have there : w'.outcome? w.records.size = some w.futures.size := by
      simp [outcome?, record?, records, outcome]
    exact kind?_lt ((roles.effect effect).1.outcomes _ _ there)
  | sequenced _ _ finished => exact absurd same finished.waits
  | outside _ _ _ later own _ =>
    obtain ⟨-, ⟨⟩, -⟩ := by simpa using same
    exact purpose?_lt own
  | joined _ _ =>
    obtain ⟨-, ⟨⟩, -⟩ := by simpa using same
    exact kind?_lt (kind_newJoint _)
  | undispatched _ lost => exact absurd same lost.waits
  | unasked lost => exact absurd same lost.waits
  | asked report =>
    obtain ⟨-, ⟨⟩, -⟩ := by simpa using same
    exact kind?_lt (roles.firsts _ _ report)
  | returned finished => exact absurd same finished.waits
  | completed finished => exact absurd same finished.waits
  | @lingering t run v call body stack =>
    obtain ⟨-, ⟨⟩, -⟩ := by simpa using same
    rw [size_onSettled, size_newFuture]
    exact Nat.lt_succ_self _
  | unreturned lost => exact absurd same lost.waits
  | uncompleted lost => exact absurd same lost.waits
  | _ => cases same

namespace Wakes

theorem fresh (h : w.Fresh) : Wakes w where
  unstarted t r waiting stood := absurd stood.lt (by simp [h.futures])
  active t waiting stood := absurd stood.lt (by simp [h.futures])
  known t f stack waits := by
    rcases waits with here | stood
    · cases h.focus.symm.trans here
    · exact absurd stood.lt (by simp [h.futures])
  waits t stack f stood := absurd stood.lt (by simp [h.futures])
  counts g children ended joins := absurd joins.lt (by simp [h.futures])
  frees g b _ own := absurd (kind?_lt own) (by simp [h.futures])

variable (wakes : Wakes w) (sound : w.Sound) (m : Move plan w w')
include wakes sound m

theorem unstarted_move {r : Routine} (stood : w'.Stands t (.unstarted r) waiting) : waiting = none := by
  cases m.came sound stood with
  | stood there => exact wakes.unstarted t r waiting there
  | made _ _ => rfl

theorem active_move (stood : w'.Stands t .active waiting) (pending : w'.settlement? t = none) :
    w'.focus.task? = some t := by
  have before := (m.grown sound.steady).pending pending
  have turn := m.turn sound
  cases turn with
  | acted act rests =>
    rcases rests.stands t _ _ stood with old | ⟨r, other, -⟩
    · exact act.task.2.trans (wakes.active t _ old before)
    · cases other
  | @halted _ u r stack waiting' busy halts shifts same idle asked queued =>
    by_cases mine : t = u
    · subst mine
      cases (stood.unique shifts.own).1
    · have old := wakes.active t _ ((shifts.others t _ _ mine).mp stood) before
      rw [busy] at old
      exact absurd (Option.some.inj old).symm mine
  | @ended _ u o busy shifts value idle delivers =>
    by_cases mine : t = u
    · subst mine
      obtain ⟨s, settled, -⟩ := delivers
      cases settled.symm.trans pending
    · have old := wakes.active t _ ((shifts.others t _ _ mine).mp stood) before
      rw [busy] at old
      exact absurd (Option.some.inj old).symm mine
  | @resumed _ u p waiting' o idle stood' shifts same heard goesOn told =>
    by_cases mine : t = u
    · subst mine
      obtain ⟨r, -, ⟨v, -, focus⟩ | ⟨e, -, focus⟩⟩ | ⟨stack, -, focus⟩ := goesOn <;> rw [focus] <;> rfl
    · have old := wakes.active t _ ((shifts.others t _ _ mine).mp stood) before
      rw [idle] at old
      cases old
  | begun r caller =>
    obtain ⟨asked, own⟩ := stood
    rw [purpose?_newTask] at own
    split at own
    · cases own
    · rw [(newTask_sameRuns r).focus]
      exact wakes.active t _ ⟨asked, own⟩ before
  | rested rests focus =>
    rcases rests.stands t _ _ stood with old | ⟨r, other, -⟩
    · exact focus ▸ wakes.active t _ old before
    · cases other

theorem known_move {stack : List Frame} (waits : w'.Waiting t f stack) : f < w'.futures.size := by
  rcases m.waits sound waits with old | ⟨notes, tasks, w₁, act, rfl⟩
  · exact (m.grown sound.steady).known (wakes.known t f stack old)
  · exact (show f < w₁.futures.size from act.waits_known sound.roles rfl)

theorem waits_move {stack : List Frame} (stood : w'.Stands t (.suspended stack) (some f))
    (pending : w'.settlement? t = none) : .wake t f ∈ w'.jobs ∨ w'.Frozen f := by
  have before := (m.grown sound.steady).pending pending
  have kept (old : w.Stands t (.suspended stack) (some f)) : .wake t f ∈ w'.jobs ∨ w'.Frozen f := by
    rcases wakes.waits t stack f old before with there | closed
    · rcases m.keeps sound there rfl with there | closed | ⟨w₁, idle, next, rfl⟩
      · exact .inl there
      · exact .inr closed
      · have active : (w₁.runJob plan (.wake t f)).Stands t .active none :=
          runJob_activates sound next (by simp [Job.signals]) before
        cases (stood.unique active).1
    · exact .inr (m.frozen sound closed)
  cases m.came sound stood with
  | stood there => exact kept there
  | halted busy halts _ queued =>
    obtain ⟨g, same, told⟩ | ⟨other, -⟩ := queued
    · obtain rfl := Option.some.inj same
      obtain ⟨_, rfl, same⟩ | ⟨-, other⟩ := halts
      · obtain rfl := Option.some.inj same
        exact told (wakes.known t f _ (.inl busy))
      · cases other
    · cases other

/-- A joint future that is pending will be told of the end of each child that it has not counted. -/
theorem counts_move (joins : w'.Joins g children ended) (pending : w'.settlement? g = none) :
    children.Nodup ∧ ended < children.length ∧ ∃ done : List FutureId, done.length ≤ ended ∧
      ∀ c ∈ children, c ∈ done ∨ .childEnded g c ∈ w'.jobs ∨ w'.Frozen c := by
  have before := (m.grown sound.steady).pending pending
  by_cases old : g < w.futures.size
  case neg =>
    obtain ⟨distinct, short, told⟩ := (m.provides sound).joints g children ended (Nat.le_of_not_lt old) joins pending
    exact ⟨distinct, short, [], Nat.zero_le _, fun c member => .inr (told c member)⟩
  -- the end of a child stays announced, or it is what is counted now
  have kept {c : FutureId} (there : .childEnded g c ∈ w.jobs ∨ w.Frozen c) :
      (.childEnded g c ∈ w'.jobs ∨ w'.Frozen c) ∨
        ∃ w₁, w.nextJob? = some (.childEnded g c, w₁) ∧ w' = w₁.childEnded g c := by
    rcases there with there | closed
    · rcases m.keeps sound there rfl with there | closed | ⟨w₁, -, next, same⟩
      · exact .inl (.inl there)
      · exact .inl (.inr closed)
      · exact .inr ⟨w₁, next, same⟩
    · exact .inl (.inr (m.frozen sound closed))
  have counted {c : FutureId} {w₁ : World} {n : Nat} (next : w.nextJob? = some (.childEnded g c, w₁))
      (mine : w.Joins g children n) : w₁.Joins g children n ∧ ∃ s, w₁.settlement? c = some s := by
    have futures := nextJob_futures next
    obtain ⟨s, settled⟩ := sound.lanes.taken next (f := c) rfl
    exact ⟨(joins_congr (purpose?_congr futures)).mpr mine, s, (settlement?_congr futures).trans settled⟩
  rcases m.joins sound old joins with same | ⟨c, w₁, k, next, rfl, mine, rfl⟩
  · obtain ⟨distinct, short, done, few, told⟩ := wakes.counts g children ended same before
    refine ⟨distinct, short, done, few, fun c member => (told c member).imp_right fun there => ?_⟩
    rcases kept there with there | ⟨w₁, next, rfl⟩
    · exact there
    · obtain ⟨mine, s, settled⟩ := counted next same
      exact absurd (joins.unique (childEnded_self mine settled)).2 (Nat.ne_of_lt (Nat.lt_succ_self _))
  · obtain ⟨distinct, -, done, few, told⟩ := wakes.counts g children k mine before
    obtain ⟨mine', s, settled⟩ := counted next mine
    refine ⟨distinct, childEnded_pending mine' settled pending, c :: done, Nat.succ_le_succ few, fun d member => ?_⟩
    rcases told d member with done | there
    · exact .inl (List.mem_cons_of_mem _ done)
    · rcases kept there with there | ⟨w₂, next', -⟩
      · exact .inr there
      · obtain ⟨same, -⟩ := by simpa using next.symm.trans next'
        exact .inl (same ▸ List.mem_cons_self)

theorem frees_move (old : b < g) (own : w'.kind? g = some (.plain (.waiter b)))
    (pending : w'.settlement? g = none) : .release g b ∈ w'.jobs ∨ w'.Frozen b := by
  have grown := m.grown sound.steady
  by_cases there : g < w.futures.size
  case neg => exact (m.provides sound).waiters g b (Nat.le_of_not_lt there) old own
  have own' := grown.kind_of_lt there own
  rcases wakes.frees g b old own' (grown.pending pending) with waits | closed
  · rcases m.keeps sound waits rfl with waits | closed | ⟨w₁, -, next, rfl⟩
    · exact .inl waits
    · exact .inr closed
    · have known : g < w₁.futures.size := nextJob_futures next ▸ there
      obtain ⟨x, found⟩ := future?_isSome known
      cases (settlement?_settle_self (s := .value .nothing) found).symm.trans pending
  · exact .inr (m.frozen sound closed)

theorem move : Wakes w' where
  unstarted _ _ _ stood := wakes.unstarted_move sound m stood
  active _ _ stood pending := wakes.active_move sound m stood pending
  known _ _ _ waits := wakes.known_move sound m waits
  waits _ _ _ stood pending := wakes.waits_move sound m stood pending
  counts _ _ _ joins pending := wakes.counts_move sound m joins pending
  frees _ _ old own pending := wakes.frees_move sound m old own pending

end Wakes

theorem Reachable.wakes (reached : Reachable plan w) : Wakes w := by
  induction reached with
  | fresh h => exact .fresh h
  | move reached m ih => exact ih.move reached.sound m

end Conductor.World
