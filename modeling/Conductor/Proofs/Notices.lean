import Conductor.Proofs.Inert

/-!
# Notices of the ends of bodies

The end of a member's body is noticed once, and the notice comes before anything that waits for the
body by other means goes on. A notice gets lost only with the loop of the body, and then whatever
waits for the body is lost too.
-/

namespace Conductor

def Job.tells (b : FutureId) : Job → Bool
  | .bodyEnded _ _ _ _ b' => b' == b
  | _ => false

namespace World

/-- Notices are told apart by bodies, and tell of what has begun. -/
structure Notices (w : World) : Prop where
  once : ∀ b, w.jobs.countP (Job.tells b) ≤ 1
  told : ∀ run node c explicit b, .bodyEnded run node c explicit b ∈ w.jobs →
    (run, .began node.head (some b)) ∈ w.notes

def Awaits (w : World) (run : RunId) (b : FutureId) : Prop :=
  ∃ node c explicit, .bodyEnded run node c explicit b ∈ w.jobs

variable {w w' : World} {f b : FutureId} {s : Settlement} {j : Job} {new : List Job}
  {notes : List Note} {tasks : List (FutureId × Routine)} {plan : Plan} {run : RunId}

theorem subperm_of_eq {l l' : List Job} (same : l = l') : l.Subperm l' := (List.Perm.of_eq same).subperm

theorem tells_of_source (other : j.source? ≠ some b) : j.tells b = false := by
  cases j with
  | bodyEnded _ _ _ _ b' =>
    simp only [Job.tells, beq_eq_false_iff_ne, ne_eq]
    rintro rfl
    exact other rfl
  | _ => rfl

theorem tells_of_free (free : j.source? = none) : j.tells b = false :=
  tells_of_source (by simp [free])

theorem notes_subset (journal : w'.journal = w.journal) : w.notes ⊆ w'.notes := by
  rw [notes_congr journal]
  exact List.Subset.refl _

/-! ### Jobs of tasks and joint futures -/

theorem jobs_resumeTask (t : FutureId) (o : Outcome) : (w.resumeTask t o).jobs.Subperm w.jobs := by
  obtain same | ⟨p, waiting, m, f, n, o', -, -, -, same, -⟩ :=
    resumeTask_cases (w := w) t o
  · exact subperm_of_eq (congrArg jobs same)
  · rw [same]
    exact jobs_repurpose (w := w) (f := t) (.task .active none false)

theorem jobs_childEnded (g c : FutureId) : (w.childEnded g c).jobs.Subperm w.jobs := by
  obtain same | ⟨children, ended, requested, s, n, -, -, result⟩ := childEnded_cases (w := w) g c
  · exact subperm_of_eq (congrArg jobs same)
  · have counted := jobs_repurpose (w := w) (f := g) (.joint children (ended + 1) requested)
    obtain ⟨same, -⟩ | ⟨s', same, -, -⟩ := result _ rfl <;> rw [same]
    · exact counted
    · exact jobs_settle.trans counted

theorem jobs_deliver (s : Settlement) : (w.deliver s).2.jobs = w.jobs :=
  jobs_congr (deliver_futures s) (deliver_agenda s)

/-! ### New notices -/

theorem Scripted.added (h : Scripted w w') :
    ∃ new : List Job, w'.jobs.Subperm (new ++ w.jobs) ∧ ∀ j ∈ new, j.source? = none := by
  have one {w w' : World} {j : Job} (jobs : w'.jobs.Subperm (j :: w.jobs)) (free : j.source? = none) :
      ∃ new : List Job, w'.jobs.Subperm (new ++ w.jobs) ∧ ∀ j ∈ new, j.source? = none :=
    ⟨[j], jobs, by simpa using free⟩
  have same {w w' : World} (jobs : w'.jobs.Subperm w.jobs) :
      ∃ new : List Job, w'.jobs.Subperm (new ++ w.jobs) ∧ ∀ j ∈ new, j.source? = none :=
    ⟨[], jobs, by simp⟩
  induction h with
  | aside _ futures agenda _ => exact same (subperm_of_eq (jobs_congr futures agenda))
  | reported _ _ _ => exact same jobs_settle
  | postponed _ _ _ => exact one (jobs_schedule _) rfl
  | queued _ _ => exact one (jobs_post _) rfl
  | made => exact same (subperm_of_eq (jobs_newFuture _))
  | timed _ _ => exact one (jobs_newFuture (.plain .timed) ▸ jobs_schedule _) rfl
  | settled _ _ _ futures agenda =>
    have made := (jobs_congr futures agenda).trans (jobs_newFuture (.plain .timed))
    exact same (jobs_settle.trans (subperm_of_eq made))
  | trans _ _ ih ih' =>
    obtain ⟨first, jobs, free⟩ := ih
    obtain ⟨second, jobs', free'⟩ := ih'
    refine ⟨second ++ first, ?_, ?_⟩
    · rw [List.append_assoc]
      exact jobs'.trans ((List.subperm_append_left second).mpr jobs)
    · intro j member
      rcases List.mem_append.mp member with later | earlier
      · exact free' j later
      · exact free j earlier

theorem newJoint_added (chains : List FutureId) : ∃ new : List Job,
    (w.newJoint chains).2.jobs.Subperm (new ++ w.jobs) ∧ ∀ j ∈ new, ∀ b, j.tells b = false := by
  have registered (l : List FutureId) (w : World) (g : FutureId) : ∃ new : List Job,
      (l.foldl (fun w child => w.onSettled child (.childEnded g child)) w).jobs.Subperm (new ++ w.jobs) ∧
        ∀ j ∈ new, ∀ b, j.tells b = false := by
    induction l generalizing w with
    | nil => exact ⟨[], .refl _, by simp⟩
    | cons c rest ih =>
      obtain ⟨new, jobs, other⟩ := ih (w.onSettled c (.childEnded g c))
      refine ⟨new ++ [.childEnded g c], ?_, ?_⟩
      · rw [List.append_assoc]
        exact jobs.trans ((List.subperm_append_left new).mpr jobs_onSettled)
      · intro j member b
        rcases List.mem_append.mp member with later | here
        · exact other j later b
        · obtain rfl := List.mem_singleton.mp here
          rfl
  have made : (w.newFuture (.joint chains 0 false)).2.jobs = w.jobs := jobs_newFuture _
  unfold World.newJoint
  dsimp only
  split
  · exact ⟨[], made ▸ jobs_settle, by simp⟩
  · obtain ⟨new, jobs, other⟩ := registered chains (w.newFuture (.joint chains 0 false)).2 w.futures.size
    exact ⟨new, made ▸ jobs, other⟩

namespace Notices

theorem keep (h : Notices w) (new : List Job) (jobs : w'.jobs.Subperm (new ++ w.jobs))
    (other : ∀ j ∈ new, ∀ b, j.tells b = false) (notes : w.notes ⊆ w'.notes) : Notices w' := by
  refine ⟨fun b => ?_, fun run node c explicit b member => ?_⟩
  · have most := jobs.countP_le (Job.tells b)
    rw [List.countP_append] at most
    have zero : new.countP (Job.tells b) = 0 :=
      List.countP_eq_zero.mpr fun j member => by simp [other j member b]
    have one := h.once b
    omega
  · rcases List.mem_append.mp (jobs.subset member) with fresh | old
    · have never := other _ fresh b
      simp [Job.tells] at never
    · exact notes (h.told run node c explicit b old)

theorem keep_free (h : Notices w) (new : List Job) (jobs : w'.jobs.Subperm (new ++ w.jobs))
    (free : ∀ j ∈ new, j.source? = none) (notes : w.notes ⊆ w'.notes) : Notices w' :=
  h.keep new jobs (fun j member _ => tells_of_free (free j member)) notes

theorem watch (h : Notices w) {node : Node} {c : CompletionId} {explicit : Bool}
    (unseen : ∀ j ∈ w.jobs, j.source? ≠ some f) :
    Notices ((w.note run (.began node.head (some f))).onSettled f (.bodyEnded run node c explicit f)) := by
  have jobs : ((w.note run (.began node.head (some f))).onSettled f
      (.bodyEnded run node c explicit f)).jobs.Subperm (.bodyEnded run node c explicit f :: w.jobs) :=
    jobs_onSettled
  have notes : ((w.note run (.began node.head (some f))).onSettled f
      (.bodyEnded run node c explicit f)).notes = (run, .began node.head (some f)) :: w.notes :=
    notes_congr onSettled_sameRuns.journal
  refine ⟨fun b => ?_, fun run' node' c' explicit' b member => ?_⟩
  · have most := jobs.countP_le (Job.tells b)
    rw [List.countP_cons] at most
    by_cases same : f = b
    · subst same
      have zero : w.jobs.countP (Job.tells f) = 0 :=
        List.countP_eq_zero.mpr fun j member => by simp [tells_of_source (unseen j member)]
      have first : (if Job.tells f (.bodyEnded run node c explicit f) = true then 1 else 0) ≤ 1 := by
        split <;> omega
      omega
    · have other : Job.tells b (.bodyEnded run node c explicit f) = false := by simp [Job.tells, same]
      have one := h.once b
      simp only [other, Bool.false_eq_true, if_false] at most
      omega
  · rw [notes]
    rcases List.mem_cons.mp (jobs.subset member) with same | old
    · obtain ⟨rfl, rfl, -, -, rfl⟩ := Job.bodyEnded.inj same
      exact List.mem_cons_self
    · exact List.mem_cons_of_mem _ (h.told run' node' c' explicit' b old)

theorem effect (h : Notices w) (e : Effect notes tasks w w') : Notices w' := by
  have kept {w w' : World} (h : Notices w) (same : w'.jobs.Subperm w.jobs)
      (notes : w.notes ⊆ w'.notes) : Notices w' := h.keep [] same (by simp) notes
  induction e with
  | kept d =>
    have same := d.loop
    refine kept h (subperm_of_eq (jobs_congr same.futures same.agenda)) ?_
    cases d with
    | noted _ => exact List.subset_cons_self _ _
    | refused _ _ _ _ => exact List.subset_cons_self _ _
    | marked _ => exact List.Subset.refl _
  | scripted done =>
    obtain ⟨new, jobs, free⟩ := done.added
    exact h.keep_free new jobs free (notes_subset done.sameRuns.journal)
  | @described w d =>
    have noted := (Effect.described (w := w) d).noted
    exact kept h (subperm_of_eq (newCompletion_jobs d)) (noted ▸ List.Subset.refl _)
  | @recorded w r own running =>
    have made := jobs_newFuture (w := w) (.plain (.outcome w.records.size))
    exact kept h (subperm_of_eq made) (List.Subset.refl _)
  | tasked r _ =>
    exact h.keep_free [.resume _] (jobs_newTask r) (by simp [Job.source?])
      (notes_subset (newTask_sameRuns r).journal)
  | watched run node c explicit unseen => exact h.watch unseen
  | @joined w chains _ _ =>
    obtain ⟨new, jobs, other⟩ := newJoint_added (w := w) chains
    exact h.keep new jobs other (notes_subset (newJoint_sameRuns chains).journal)
  | @waited w f =>
    refine h.keep [.release w.futures.size f] ?_ (by simp [Job.tells])
      (notes_subset onSettled_sameRuns.journal)
    exact jobs_newFuture (w := w) (.plain (.waiter f)) ▸ jobs_onSettled
  | concluded _ _ _ =>
    refine kept h (jobs_settle (w := World.setStatus _ _ _)) ?_
    rw [notes_congr settle_sameRuns.journal]
    exact List.subset_cons_self _ _
  | failed _ _ _ _ =>
    exact kept h jobs_settle (notes_subset settle_sameRuns.journal)
  | trans _ _ ih ih' => exact ih' (ih h)

theorem handover (h : Notices w) (past : Handover w w') : Notices w' := by
  have quiet := Quiet.handover past
  have notes := notes_subset quiet.journal
  cases past with
  | focused f _ _ _ => exact h.keep [] (.refl _) (by simp) notes
  | @suspended t f stack _ _ =>
    have jobs : (w.suspend t f stack).jobs.Subperm (.wake t f :: w.jobs) := by
      have asked := jobs_onSettled (w := w.setPosition t (.suspended stack) (some f)) (f := f)
        (j := .wake t f)
      exact asked.trans ((List.subperm_append_left [_]).mpr (jobs_setPosition _ _))
    exact h.keep [.wake t f] jobs (by simp [Job.tells]) notes
  | @yielded t stack _ =>
    refine h.keep [.resume t] ?_ (by simp [Job.tells]) notes
    have posted := jobs_post (w := w.setPosition t (.suspended stack) none) (j := .resume t)
      w.agenda.loop
    exact posted.trans ((List.subperm_append_left [_]).mpr (jobs_setPosition _ _))
  | @ended t o _ =>
    have jobs : (w.endTask t o).jobs.Subperm w.jobs := jobs_settle.trans (jobs_setPosition _ _)
    exact h.keep [] jobs (by simp) notes

/-- A notice that is taken off the queue is the only one about its body. -/
theorem nextJob (h : Notices w) (next : w.nextJob? = some (j, w')) :
    Notices w' ∧ ∀ b, j.tells b → ∀ k ∈ w'.jobs, k.tells b = false := by
  have jobs := jobs_nextJob next
  refine ⟨h.keep [] ?_ (by simp) (notes_subset (nextJob_sameRuns next).journal), fun b told k member => ?_⟩
  · exact jobs ▸ (List.sublist_cons_self j w'.jobs).subperm
  · have one := h.once b
    rw [jobs, List.countP_cons, if_pos told] at one
    have zero : w'.jobs.countP (Job.tells b) = 0 := by omega
    simpa using List.countP_eq_zero.mp zero k member

theorem handled (h : Notices w) (rest : Handled j w w') : Notices w' := by
  have aside {w' : World} (jobs : w'.jobs.Subperm w.jobs) (journal : w'.journal = w.journal) :
      Notices w' := h.keep [] jobs (by simp) (notes_subset journal)
  cases rest with
  | effect e _ => exact h.effect e
  | resumed => exact aside (jobs_resumeTask _ _) (Quiet.resumeTask _ _).journal
  | @woken t f _ s =>
    have delivered : Notices (w.deliver s).2 :=
      aside (subperm_of_eq (jobs_deliver s)) (Quiet.deliver s).journal
    exact delivered.keep [] (jobs_resumeTask _ _) (by simp) (notes_subset (Quiet.resumeTask _ _).journal)
  | counted => exact aside (jobs_childEnded _ _) (Quiet.childEnded _ _).journal
  | freed => exact aside jobs_settle settle_sameRuns.journal
  | @matured f _ _ s n =>
    exact aside (jobs_settle (w := w.raisedTo n)) (settle_sameRuns (w := w.raisedTo n)).journal
  | stopped => exact aside (.refl _) rfl

theorem change (h : Notices w) (c : Change w w') : Notices w' := by
  cases c with
  | worked e past => exact (h.effect e).handover past
  | handled _ next rest => exact (h.nextJob next).1.handled rest
  | turned _ next =>
    obtain ⟨_, -, rfl⟩ := nextTurn_cases next
    exact h.keep [] (jobs_beginTurn (w := { w with clock := _ })).subperm (by simp) (List.Subset.refl _)

theorem interrupted (h : Notices w) (i : Interrupted w w') : Notices w' := by
  induction i with
  | refl _ => exact h
  | settled _ => exact h.keep [] jobs_settle (by simp) (notes_subset settle_sameRuns.journal)
  | asked _ => exact h.keep [] (jobs_repurpose _) (by simp) (List.Subset.refl _)
  | told _ => exact h.keep [] (jobs_repurpose _) (by simp) (List.Subset.refl _)
  | trans _ _ ih ih' => exact ih' (ih h)

theorem fresh (h : w.Fresh) : Notices w := by
  have jobs : w.jobs = [] := by simp [jobs, h.agenda, h.futures]
  exact ⟨by simp [jobs], by simp [jobs]⟩

theorem move (h : Notices w) (steady : w.Steady) (m : Move plan w w') : Notices w' := by
  have same := List.Subset.refl w.notes
  cases m with
  | stepped stepped => exact h.change (step_change steady stepped)
  | supplied _ => exact h.keep [] (.refl _) (by simp) same
  | called r _ =>
    exact h.keep [.resume _] (jobs_newTask r) (by simp [Job.tells])
      (notes_subset (newTask_sameRuns r).journal)
  | observed f =>
    exact h.keep [.stop] jobs_onSettled (by simp [Job.tells]) (notes_subset onSettled_sameRuns.journal)
  | cleared => exact h.keep [] (.refl _) (by simp) same
  | cancelled f => exact h.interrupted (cancel_interrupted f)
  | turned => exact h.keep [] jobs_beginTurn.subperm (by simp) same
  | opened n _ _ _ => exact h.keep [] (jobs_openLoop n) (by simp) same
  | closed _ => exact h.keep [] jobs_dropLoop (by simp) same

end Notices

theorem Reachable.notices (h : Reachable plan w) : Notices w := by
  induction h with
  | fresh fresh => exact .fresh fresh
  | move before m ih => exact ih.move before.sound.steady m

/-- A notice that an effect adds tells of something that the effect has begun. -/
theorem Effect.notice {node : Node} {c : CompletionId} {explicit : Bool} (e : Effect notes tasks w w')
    (member : .bodyEnded run node c explicit b ∈ w'.jobs) :
    .bodyEnded run node c explicit b ∈ w.jobs ∨ (run, .began node.head (some b)) ∈ notes := by
  have added {w w' : World} {new : List Job} (jobs : w'.jobs.Subperm (new ++ w.jobs))
      (other : ∀ j ∈ new, ∀ b, j.tells b = false) (member : .bodyEnded run node c explicit b ∈ w'.jobs) :
      .bodyEnded run node c explicit b ∈ w.jobs := by
    rcases List.mem_append.mp (jobs.subset member) with fresh | old
    · have never := other _ fresh b
      simp [Job.tells] at never
    · exact old
  induction e with
  | kept d => exact .inl ((subperm_of_eq (jobs_congr d.loop.futures d.loop.agenda)).subset member)
  | scripted done =>
    obtain ⟨new, jobs, free⟩ := done.added
    exact .inl (added jobs (fun j member _ => tells_of_free (free j member)) member)
  | described d => exact .inl ((subperm_of_eq (newCompletion_jobs d)).subset member)
  | @recorded w r _ _ =>
    have made := jobs_newFuture (w := w) (.plain (.outcome w.records.size))
    exact .inl ((subperm_of_eq made).subset member)
  | @tasked w r _ =>
    have other : ∀ j ∈ [Job.resume w.futures.size], ∀ b, j.tells b = false := by simp [Job.tells]
    exact .inl (added (jobs_newTask r) other member)
  | @watched w f other node' c' explicit' _ =>
    rcases List.mem_cons.mp (jobs_onSettled.subset member) with here | old
    · obtain ⟨rfl, rfl, -, -, rfl⟩ := Job.bodyEnded.inj here
      exact .inr (List.mem_singleton_self _)
    · exact .inl old
  | @joined w chains _ _ =>
    obtain ⟨new, jobs, other⟩ := newJoint_added (w := w) chains
    exact .inl (added jobs other member)
  | @waited w f =>
    have other : ∀ j ∈ [Job.release w.futures.size f], ∀ b, j.tells b = false := by simp [Job.tells]
    exact .inl (added (jobs_newFuture (w := w) (.plain (.waiter f)) ▸ jobs_onSettled) other member)
  | concluded _ _ _ => exact .inl ((jobs_settle (w := World.setStatus _ _ _)).subset member)
  | failed _ _ _ _ => exact .inl (jobs_settle.subset member)
  | trans _ _ ih ih' =>
    rcases ih' member with between | began
    · exact (ih between).imp_right (List.mem_append_right _)
    · exact .inr (List.mem_append_left _ began)

/-! ### Notices that stay -/

/-- A job that is to run when a future settles waits, or its loop is closed. -/
theorem onSettled_waits (known : f < w.futures.size) :
    j ∈ (w.onSettled f j).jobs ∨ (w.onSettled f j).Frozen f := by
  obtain ⟨x, found⟩ := future?_isSome known
  have loop : (w.onSettled f j).loop? f = some x.loop :=
    Grown.onSettled.loops f x.loop (by simp [loop?, found])
  have same := (onSettled_sameRuns (w := w) (f := f) (j := j)).loop
  unfold World.onSettled at loop same ⊢
  rw [found] at loop same ⊢
  dsimp only at loop same ⊢
  split
  · rename_i past
    rw [if_pos past] at loop same
    unfold World.post at loop same ⊢
    split
    · exact .inl (mem_jobs_of_ready (List.mem_append_right _ (List.mem_singleton_self j)))
    · rename_i elsewhere
      split
      · exact .inl (mem_jobs_of_parked (List.mem_append_right _ (List.mem_singleton_self j)))
      · rename_i other
        rw [if_neg elsewhere, if_neg other] at loop
        exact .inr ⟨x.loop, loop, other, elsewhere⟩
  · have own : (w.modifyFuture f fun x => { x with callbacks := x.callbacks ++ [j] }).callbacks? f
        = some (x.callbacks ++ [j]) := by
      unfold callbacks?
      rw [future?_modifyFuture, if_pos rfl, found]
      rfl
    exact .inl (mem_jobs_of_callback own (by simp))

theorem Lanes.noticed {g : FutureId} (h : Lanes w) (next : w.nextJob? = some (.release g b, w')) :
    (∃ s, w.settlement? b = some s) ∧ ¬ w.Frozen b ∧ ∀ run, ¬ w.Awaits run b := by
  have first : .release g b ∈ w.agenda.ready ∧
      ∀ k ∈ w.agenda.ready, k = .release g b ∨ (Job.release g b).InOrder k := by
    obtain ⟨_, rest, queue, -⟩ := nextJob_cases next
    have order := h.ready.order
    rw [queue] at order ⊢
    refine ⟨List.mem_cons_self, fun k member => ?_⟩
    rcases List.mem_cons.mp member with here | later
    · exact .inl here
    · exact .inr ((List.pairwise_cons.mp order).1 k later)
  obtain ⟨past, loop⟩ := h.ready.sources _ first.1 b rfl
  refine ⟨Option.isSome_iff_exists.mp past, ?_, ?_⟩
  · rintro ⟨n, own, -, other⟩
    exact other (Option.some.inj (own.symm.trans loop))
  · rintro run ⟨node, c, explicit, member⟩
    rcases mem_jobs member with ready | parked | ⟨t, timed, same⟩ | ⟨g', js, own, called⟩
    · rcases first.2 _ ready with here | order
      · cases here
      · exact order b ⟨g, rfl⟩ ⟨run, node, c, explicit, rfl⟩
    · obtain ⟨-, main⟩ := h.parked.sources _ parked b rfl
      have some : w.agenda.parked ≠ [] := List.ne_nil_of_mem parked
      exact h.away some (Option.some.inj (loop.symm.trans main))
    · have free := h.timers t timed
      rw [same] at free
      cases free
    · obtain rfl := (h.callbacks g' js own).1.sources _ called b rfl
      have pending := (h.callbacks b js own).2 (List.ne_nil_of_mem called)
      rw [pending] at past
      cases past

end World

end Conductor
