import Conductor.Proofs.Tasks

/-!
# Joint futures

A joint future counts every child once. It settles with a value only when all its children have,
because the first child that ends otherwise settles it with a failure.
-/

namespace Conductor.World

def Succeeded (w : World) (f : FutureId) : Prop := ∃ v, w.settlement? f = some (.value v)

def Joins (w : World) (g : FutureId) (children : List FutureId) (ended : Nat) : Prop :=
  ∃ requested, w.purpose? g = some (.joint children ended requested)

structure Joints (w : World) : Prop where
  once : ∀ g c, w.jobs.countP (Job.counts g c) ≤ 1
  aimed : ∀ g c, .childEnded g c ∈ w.jobs → ∃ children ended, w.Joins g children ended ∧ c ∈ children
  counted : ∀ g children ended, w.Joins g children ended → w.settlement? g = none →
    ∃ done : List FutureId, done.Nodup ∧ done ⊆ children ∧ done.length = ended ∧
      ∀ c ∈ done, w.Succeeded c ∧ .childEnded g c ∉ w.jobs
  joined : ∀ g children ended, w.Joins g children ended → w.Succeeded g →
    ∀ c ∈ children, w.Succeeded c

variable {w w' : World} {f g c : FutureId} {j : Job} {s : Settlement} {new : List Job}
  {children : List FutureId} {ended : Nat}

theorem Succeeded.grown (h : w.Succeeded f) (grown : Grown w w') : w'.Succeeded f := by
  obtain ⟨v, own⟩ := h
  exact ⟨v, grown.settlements f _ own⟩

theorem Joins.unique {others : List FutureId} {n : Nat} (h : w.Joins g children ended)
    (h' : w.Joins g others n) : children = others ∧ ended = n := by
  obtain ⟨q, own⟩ := h
  obtain ⟨q', own'⟩ := h'
  rw [own] at own'
  simp only [Option.some.injEq, Purpose.joint.injEq] at own'
  exact ⟨own'.1, own'.2.1⟩

theorem Joins.lt (h : w.Joins g children ended) : g < w.futures.size := by
  obtain ⟨q, own⟩ := h
  exact purpose?_lt own

theorem joins_congr (same : w'.purpose? g = w.purpose? g) :
    w'.Joins g children ended ↔ w.Joins g children ended := by
  unfold Joins
  rw [same]

theorem counts_self : (Job.childEnded g c).counts g c = true := by simp [Job.counts]

namespace Joints

theorem keep (h : Joints w) (new : List Job) (grown : Grown w w') (jobs : w'.jobs.Subperm (new ++ w.jobs))
    (other : ∀ j ∈ new, ∀ g c, j.counts g c = false)
    (joins : ∀ g children ended, w'.Joins g children ended ↔ w.Joins g children ended)
    (settlements : ∀ g children ended, w.Joins g children ended →
      w'.settlement? g = w.settlement? g) : Joints w' := by
  have old {g c : FutureId} (member : .childEnded g c ∈ w'.jobs) : .childEnded g c ∈ w.jobs := by
    rcases List.mem_append.mp (jobs.subset member) with fresh | old
    · simpa [counts_self] using other _ fresh g c
    · exact old
  refine ⟨fun g c => ?_, fun g c member => ?_, fun g cs k there pending => ?_, ?_⟩
  · have most := jobs.countP_le (Job.counts g c)
    rw [List.countP_append] at most
    have zero : new.countP (Job.counts g c) = 0 :=
      List.countP_eq_zero.mpr fun j member => by simp [other j member g c]
    have one := h.once g c
    omega
  · obtain ⟨cs, k, there, inside⟩ := h.aimed g c (old member)
    exact ⟨cs, k, (joins g cs k).mpr there, inside⟩
  · have before := (joins g cs k).mp there
    obtain ⟨done, distinct, inside, length, past⟩ :=
      h.counted g cs k before ((settlements g cs k before).symm.trans pending)
    refine ⟨done, distinct, inside, length, fun c member => ?_⟩
    exact ⟨(past c member).1.grown grown, fun waiting => (past c member).2 (old waiting)⟩
  · rintro g cs k there ⟨v, own⟩ c member
    have before := (joins g cs k).mp there
    have success : w.Succeeded g := ⟨v, (settlements g cs k before).symm.trans own⟩
    exact (h.joined g cs k before success c member).grown grown

theorem adds (h : Joints w) (grown : Grown w w') (added : Adds new w w') : Joints w' := by
  have known {g : FutureId} {cs : List FutureId} {k : Nat} (there : w'.Joins g cs k)
      (old : g < w.futures.size) : w.Joins g cs k := by
    obtain ⟨q, own⟩ := there
    obtain ⟨p, own'⟩ := purpose?_isSome old
    obtain rfl := Option.some.inj ((added.purposes g p own').symm.trans own)
    exact ⟨q, own'⟩
  have kept {g : FutureId} {cs : List FutureId} {k : Nat} (there : w.Joins g cs k) :
      w'.settlement? g = w.settlement? g := by
    obtain ⟨q, own⟩ := there
    exact added.untouched g _ own (by simp)
  -- a new joint future is the only one that new jobs tell of children
  have old {g c : FutureId} (bound : g < w.futures.size) (member : .childEnded g c ∈ w'.jobs) :
      .childEnded g c ∈ w.jobs := by
    rcases List.mem_append.mp (added.jobs.subset member) with fresh | old
    · exact absurd bound (Nat.not_lt.mpr ((added.opened _ fresh).freshJoint counts_self).1)
    · exact old
  refine ⟨fun g c => ?_, fun g c member => ?_, fun g cs k there pending => ?_, ?_⟩
  · have most := added.jobs.countP_le (Job.counts g c)
    rw [List.countP_append] at most
    by_cases some : ∃ j ∈ new, j.counts g c
    · obtain ⟨j, member, count⟩ := some
      have fresh := ((added.opened j member).freshJoint count).1
      have zero : w.jobs.countP (Job.counts g c) = 0 := by
        refine List.countP_eq_zero.mpr fun k member count => ?_
        cases k with
        | childEnded g' c' =>
          obtain ⟨rfl, rfl⟩ : g' = g ∧ c' = c := by simpa [Job.counts] using count
          obtain ⟨cs, n, there, -⟩ := h.aimed g' c' member
          exact Nat.not_lt.mpr fresh there.lt
        | _ => simp [Job.counts] at count
      have one := added.counts g c
      omega
    · have zero : new.countP (Job.counts g c) = 0 :=
        List.countP_eq_zero.mpr fun j member count => some ⟨j, member, count⟩
      have one := h.once g c
      omega
  · rcases List.mem_append.mp (added.jobs.subset member) with fresh | old
    · obtain ⟨-, cs, own, inside⟩ := added.opened _ fresh
      exact ⟨cs, 0, ⟨false, own⟩, inside⟩
    · obtain ⟨cs, k, ⟨q, own⟩, inside⟩ := h.aimed g c old
      exact ⟨cs, k, ⟨q, added.purposes g _ own⟩, inside⟩
  · by_cases bound : g < w.futures.size
    · have before := known there bound
      obtain ⟨done, distinct, inside, length, past⟩ :=
        h.counted g cs k before ((kept before).symm.trans pending)
      refine ⟨done, distinct, inside, length, fun c member => ?_⟩
      exact ⟨(past c member).1.grown grown, fun waiting => (past c member).2 (old bound waiting)⟩
    · obtain ⟨q, own⟩ := there
      obtain ⟨rfl, -, -⟩ := added.begins g _ (Nat.le_of_not_lt bound) own
      exact ⟨[], List.nodup_nil, by simp, rfl, by simp⟩
  · intro g cs k there success c member
    by_cases bound : g < w.futures.size
    · have before := known there bound
      obtain ⟨v, own⟩ := success
      exact (h.joined g cs k before ⟨v, (kept before).symm.trans own⟩ c member).grown grown
    · obtain ⟨q, own⟩ := there
      obtain ⟨v, past⟩ := success
      obtain ⟨-, -, pending | rfl⟩ := added.begins g _ (Nat.le_of_not_lt bound) own
      · rw [pending] at past
        cases past
      · cases member

theorem effect {notes : List Note} {tasks : List (FutureId × Routine)} (h : Joints w) (roles : w.Roles)
    (e : Effect notes tasks w w') : Joints w' := by
  obtain ⟨-, new, added⟩ := roles.effect e
  exact h.adds (.effect e) added

theorem aside (h : Joints w) (new : List Job) (grown : Grown w w') (jobs : w'.jobs.Subperm (new ++ w.jobs))
    (other : ∀ j ∈ new, ∀ g c, j.counts g c = false)
    (purposes : ∀ g, g ≠ f → w'.purpose? g = w.purpose? g)
    (settlements : ∀ g, g ≠ f → w'.settlement? g = w.settlement? g)
    (never : ∀ cs, w.kind? f ≠ some (.joint cs)) (never' : ∀ cs, w'.kind? f ≠ some (.joint cs)) :
    Joints w' := by
  refine h.keep new grown jobs other (fun g cs k => ?_) fun g cs k there => settlements g ?_
  · by_cases same : g = f
    · subst same
      refine iff_of_false ?_ ?_
      · exact fun ⟨q, own⟩ => never' cs (kind?_of_purpose? own)
      · exact fun ⟨q, own⟩ => never cs (kind?_of_purpose? own)
    · exact joins_congr (purposes g same)
  · rintro rfl
    obtain ⟨q, own⟩ := there
    exact never cs (kind?_of_purpose? own)

theorem settle (h : Joints w) (never : ∀ cs, w.kind? f ≠ some (.joint cs)) :
    Joints (w.settle f s) := by
  refine h.aside [] (f := f) .settle jobs_settle (by simp) (fun _ _ => purpose?_settle)
    (fun _ other => settlement?_settle_other other) never fun cs kind => never cs ?_
  unfold kind? at kind ⊢
  rwa [purpose?_settle] at kind

theorem nextJob (h : Joints w) (next : w.nextJob? = some (j, w')) : Joints w' := by
  have futures := nextJob_futures next
  refine h.keep [] (.nextJob next) ?_ (by simp) (fun g cs k => ?_) fun g cs k _ => ?_
  · rw [jobs_nextJob next]
    exact List.Subperm.cons_self
  · exact joins_congr (purpose?_congr futures)
  · exact settlement?_congr futures

theorem uncounted (h : Joints w) (next : w.nextJob? = some (.childEnded g c, w'))
    (there : w'.Joins g children ended) : c ∈ children ∧ .childEnded g c ∉ w'.jobs ∧
      (w'.settlement? g = none → ∃ done : List FutureId, (c :: done).Nodup ∧ done ⊆ children ∧
        done.length = ended ∧ ∀ d ∈ done, w'.Succeeded d ∧ .childEnded g d ∉ w'.jobs) := by
  have jobs := jobs_nextJob next
  have futures := nextJob_futures next
  have before := (joins_congr (purpose?_congr futures)).mp there
  have first : .childEnded g c ∈ w.jobs := jobs ▸ List.mem_cons_self
  refine ⟨?_, fun again => ?_, fun pending => ?_⟩
  · obtain ⟨cs, k, there', inside⟩ := h.aimed g c first
    exact (there'.unique before).1 ▸ inside
  · have one := h.once g c
    rw [jobs, List.countP_cons_of_pos counts_self] at one
    have more := List.countP_pos_iff.mpr ⟨_, again, counts_self⟩
    omega
  · obtain ⟨done, distinct, inside, length, past⟩ :=
      h.counted g children ended before ((settlement?_congr futures).symm.trans pending)
    refine ⟨done, List.nodup_cons.mpr ⟨fun again => (past c again).2 first, distinct⟩, inside, length,
      fun d member => ?_⟩
    obtain ⟨success, absent⟩ := past d member
    exact ⟨success.grown (.nextJob next), fun later => absent (jobs ▸ List.mem_cons_of_mem _ later)⟩

/-- Only what one joint future has counted is changed, and whether it is settled. -/
theorem recount (h : Joints w) (grown : Grown w w') (jobs : w'.jobs.Subperm w.jobs)
    (purposes : ∀ f, f ≠ g → w'.purpose? f = w.purpose? f)
    (settlements : ∀ f, f ≠ g → w'.settlement? f = w.settlement? f)
    {n : Nat} (mine : w.Joins g children ended) (mine' : w'.Joins g children n)
    (counted : w'.settlement? g = none → ∃ done : List FutureId, done.Nodup ∧ done ⊆ children ∧
      done.length = n ∧ ∀ c ∈ done, w'.Succeeded c ∧ .childEnded g c ∉ w'.jobs)
    (joined : w'.Succeeded g → ∀ c ∈ children, w'.Succeeded c) : Joints w' := by
  have joins {f : FutureId} (other : f ≠ g) {cs : List FutureId} {k : Nat} :
      w'.Joins f cs k ↔ w.Joins f cs k := joins_congr (purposes f other)
  refine ⟨fun f c => Nat.le_trans (jobs.countP_le _) (h.once f c), fun f c member => ?_,
    fun f cs k there pending => ?_, fun f cs k there success c member => ?_⟩
  · obtain ⟨cs, k, there, inside⟩ := h.aimed f c (jobs.subset member)
    by_cases same : f = g
    · subst same
      obtain ⟨rfl, rfl⟩ := there.unique mine
      exact ⟨cs, n, mine', inside⟩
    · exact ⟨cs, k, (joins same).mpr there, inside⟩
  · by_cases same : f = g
    · subst same
      obtain ⟨rfl, rfl⟩ := there.unique mine'
      exact counted pending
    · obtain ⟨done, distinct, inside, length, past⟩ :=
        h.counted f cs k ((joins same).mp there) ((settlements f same).symm.trans pending)
      refine ⟨done, distinct, inside, length, fun c member => ?_⟩
      obtain ⟨success, absent⟩ := past c member
      exact ⟨success.grown grown, fun again => absent (jobs.subset again)⟩
  · by_cases same : f = g
    · subst same
      obtain ⟨rfl, rfl⟩ := there.unique mine'
      exact joined success c member
    · obtain ⟨v, own⟩ := success
      have before : w.Succeeded f := ⟨v, (settlements f same).symm.trans own⟩
      exact (h.joined f cs k ((joins same).mp there) before c member).grown grown

theorem childEnded (h : Joints w) (next : w.nextJob? = some (.childEnded g c, w')) :
    Joints (w'.childEnded g c) := by
  have after := h.nextJob next
  have grown := Grown.childEnded (w := w') g c
  obtain same | ⟨cs, k, requested, s, n, ended, own, result⟩ := childEnded_cases (w := w') g c
  · rw [same]
    exact after
  obtain ⟨member, absent, done⟩ := h.uncounted next ⟨requested, own⟩
  have mine : w'.Joins g cs k := ⟨requested, own⟩
  have jobs := jobs_repurpose (w := w') (f := g) (.joint cs (k + 1) requested)
  have purposes (f : FutureId) (other : f ≠ g) :
      (w'.repurpose g (.joint cs (k + 1) requested)).purpose? f = w'.purpose? f := by
    rw [purpose?_repurpose, if_neg other]
  have counted : (w'.repurpose g (.joint cs (k + 1) requested)).purpose? g
      = some (.joint cs (k + 1) requested) := by
    rw [purpose?_repurpose, if_pos rfl, own]
    rfl
  -- with the child that has just succeeded, one more is done
  have more (value : ∃ v, s = .value v) (pending : w'.settlement? g = none) :
      ∃ done : List FutureId, done.Nodup ∧ done ⊆ cs ∧ done.length = k + 1 ∧
        ∀ d ∈ done, w'.Succeeded d ∧ .childEnded g d ∉ w'.jobs := by
    obtain ⟨rest, distinct, inside, length, past⟩ := done pending
    obtain ⟨v, rfl⟩ := value
    refine ⟨c :: rest, distinct, List.cons_subset.mpr ⟨member, inside⟩, by simp [length], ?_⟩
    intro d there
    rcases List.mem_cons.mp there with rfl | old
    · exact ⟨⟨v, ended⟩, absent⟩
    · exact past d old
  obtain ⟨same, value⟩ | ⟨s', same, -, value⟩ := result _ rfl <;> rw [same] at grown ⊢
  · refine after.recount grown jobs purposes (fun f _ => settlement?_repurpose) mine
      ⟨requested, counted⟩ (fun pending => ?_) fun success => ?_
    · have before : w'.settlement? g = none := settlement?_repurpose.symm.trans pending
      obtain ⟨done, distinct, inside, length, past⟩ := more (value before).1 before
      refine ⟨done, distinct, inside, length, fun d there => ?_⟩
      exact ⟨(past d there).1.grown grown, fun again => (past d there).2 (jobs.subset again)⟩
    · obtain ⟨v, past⟩ := success
      have before : w'.Succeeded g := ⟨v, settlement?_repurpose.symm.trans past⟩
      exact fun d there => (after.joined g cs k mine before d there).grown grown
  · generalize made : (w'.repurpose g (.joint cs (k + 1) requested)).raisedTo n = w₁ at grown ⊢
    subst made
    refine after.recount grown (jobs_settle.trans jobs)
      (fun f other => purpose?_settle.trans (purposes f other))
      (fun f other => (settlement?_settle_other other).trans settlement?_repurpose) mine
      ⟨requested, purpose?_settle.trans counted⟩ (fun pending => ?_) fun success => ?_
    · obtain ⟨x, found⟩ := future?_isSome (purpose?_lt counted)
      have past := settlement?_settle_self (s := s')
        (w := (w'.repurpose g (.joint cs (k + 1) requested)).raisedTo n) found
      rw [pending] at past
      cases past
    · obtain ⟨v, past⟩ := success
      have before : w'.settlement? g = some (.value v) ∨ w'.settlement? g = none ∧ s' = .value v := by
        rcases settlement?_settle (s := s') (f := g)
          (w := (w'.repurpose g (.joint cs (k + 1) requested)).raisedTo n) g with old | ⟨-, none, new⟩
        · exact .inl (settlement?_repurpose.symm.trans (old.symm.trans past))
        · refine .inr ⟨settlement?_repurpose.symm.trans none, ?_⟩
          exact Option.some.inj (new.symm.trans past)
      intro d there
      rcases before with old | ⟨pending, new⟩
      · exact (after.joined g cs k mine ⟨v, old⟩ d there).grown grown
      · subst new
        obtain ⟨success, all⟩ := value
        obtain ⟨done, distinct, inside, length, each⟩ := more success pending
        have whole := (distinct.subperm inside).perm_of_length_le (Nat.le_trans all (Nat.le_of_eq length.symm))
        exact (each d (whole.symm.subset there)).1.grown grown

theorem tasked (h : Joints w) (new : List Job) {p : Position} {waiting : Option FutureId}
    (there : w.Stands f p waiting) (grown : Grown w w') (jobs : w'.jobs.Subperm (new ++ w.jobs))
    (other : ∀ j ∈ new, ∀ g c, j.counts g c = false)
    (purposes : ∀ g, g ≠ f → w'.purpose? g = w.purpose? g)
    (settlements : ∀ g, g ≠ f → w'.settlement? g = w.settlement? g) : Joints w' := by
  obtain ⟨m, own⟩ := there
  have kind := kind?_of_purpose? own
  refine h.aside new grown jobs other purposes settlements (fun cs joint => ?_) fun cs joint => ?_
  · rw [kind] at joint
    cases joint
  · rw [grown.kinds f _ kind] at joint
    cases joint

theorem handover (h : Joints w) (tasks : w.Tasks) (past : Handover w w') : Joints w' := by
  have grown := Grown.handover past
  cases past with
  | focused f _ _ _ => exact h.keep [] grown (.refl _) (by simp) (fun _ _ _ => .rfl) fun _ _ _ _ => rfl
  | @suspended t f stack busy pending =>
    have active := (tasks.focus t (by rw [busy]; rfl)).2
    refine h.tasked [.wake t f] active grown ?_ (by simp [Job.counts]) ?_ ?_
    · exact jobs_onSettled.trans ((List.subperm_append_left [_]).mpr (jobs_setPosition _ _))
    · exact fun g other => purpose?_onSettled.trans (purpose?_setPosition_other _ _ other)
    · exact fun g _ => settlement?_onSettled.trans (settlement?_setPosition _ _)
  | @yielded t stack busy =>
    have active := (tasks.focus t (by rw [busy]; rfl)).2
    refine h.tasked [.resume t] active grown ?_ (by simp [Job.counts]) ?_ ?_
    · exact (jobs_post _).trans ((List.subperm_append_left [_]).mpr (jobs_setPosition _ _))
    · exact fun g other => (purpose?_post _).trans (purpose?_setPosition_other _ _ other)
    · exact fun g _ => (settlement?_post _).trans (settlement?_setPosition _ _)
  | @ended t o busy =>
    have active := (tasks.focus t (by rw [busy]; rfl)).2
    refine h.tasked [] active grown (jobs_settle.trans (jobs_setPosition _ _)) (by simp) ?_ ?_
    · exact fun g other => purpose?_settle.trans (purpose?_setPosition_other _ _ other)
    · exact fun g other => (settlement?_settle_other other).trans (settlement?_setPosition _ _)

theorem resumeTask (h : Joints w) (t : FutureId) (o : Outcome) : Joints (w.resumeTask t o) := by
  have grown := Grown.resumeTask (w := w) t o
  obtain same | ⟨p, waiting, m, f, n, o', -, own, -, same, -⟩ :=
    resumeTask_cases (w := w) t o <;> rw [same] at grown ⊢
  · exact h
  · have jobs : (w.activate t).jobs.Subperm w.jobs := jobs_repurpose _
    refine h.tasked [] ⟨m, own⟩ grown jobs (by simp) (fun g other => ?_) fun g _ => ?_
    · exact (Tasks.purpose?_activate (w := w) ⟨m, own⟩).trans (if_neg other)
    · exact settlement?_repurpose (w := w)

theorem never_joint {role : Role} (plain : w.kind? f = some (.plain role)) (cs : List FutureId) :
    w.kind? f ≠ some (.joint cs) := by
  rw [plain]
  simp

theorem handled (h : Joints w) (roles : w.Roles) (next : w.nextJob? = some (j, w'))
    {w'' : World} (rest : Handled j w' w'') : Joints w'' := by
  have after := h.nextJob next
  have jobs := jobs_nextJob next
  have same {f : FutureId} : w'.kind? f = w.kind? f := by
    rw [kind?, kind?, purpose?_congr (nextJob_futures next)]
  cases rest with
  | effect e _ => exact after.effect (roles.of_nextJob next) e
  | resumed => exact after.resumeTask _ _
  | woken _ => exact (after.effect (roles.of_nextJob next) (.deliver _)).resumeTask _ _
  | counted => exact h.childEnded next
  | freed =>
    exact after.settle (never_joint (same.trans (roles.releases _ _ (jobs ▸ List.mem_cons_self))))
  | matured n _ =>
    have raised : Joints (w'.raisedTo n) :=
      after.keep [] (.raisedTo n) (.refl _) (by simp) (fun _ _ _ => .rfl) fun _ _ _ _ => rfl
    exact raised.settle (never_joint (same.trans (roles.settles _ _ (jobs ▸ List.mem_cons_self))))
  | stopped =>
    exact after.keep [] (.aside rfl rfl rfl rfl) (.refl _) (by simp) (fun _ _ _ => .rfl)
      fun _ _ _ _ => rfl

theorem of_futures (h : Joints w) (grown : Grown w w') (futures : w'.futures = w.futures)
    (jobs : w'.jobs.Subperm w.jobs) : Joints w' :=
  h.keep [] grown jobs (by simp) (fun _ _ _ => joins_congr (purpose?_congr futures))
    fun _ _ _ _ => settlement?_congr futures

theorem nextTurn (h : Joints w) (next : w.nextTurn? = some w') : Joints w' := by
  have clocked (n : Nat) : Joints { w with clock := n } :=
    h.of_futures (.aside rfl rfl rfl rfl) rfl (.refl _)
  have turned {w : World} (h : Joints w) : Joints w.beginTurn :=
    h.of_futures (.aside rfl rfl rfl rfl) rfl jobs_beginTurn.subperm
  obtain ⟨_, -, rfl⟩ := nextTurn_cases next
  exact turned (clocked _)

theorem change (h : Joints w) (roles : w.Roles) (tasks : w.Tasks) (c : Change w w') :
    Joints w' := by
  cases c with
  | worked e past => exact (h.effect roles e).handover (tasks.effect roles e) past
  | handled _ next rest => exact h.handled roles next rest
  | turned _ next => exact h.nextTurn next

theorem interrupted (h : Joints w) (i : Interrupted w w') : Joints w' := by
  induction i with
  | refl _ => exact h
  | settled plain => exact h.settle (never_joint (kind?_of_purpose? plain))
  | @asked w f children ended requested joint =>
    have grown := Grown.repurpose (q := .joint children ended true) joint rfl
    refine h.keep [] grown (jobs_repurpose _) (by simp) (fun g cs k => ?_)
      fun g cs k _ => settlement?_repurpose
    by_cases same : g = f
    · subst same
      unfold Joins
      rw [purpose?_repurpose, if_pos rfl, joint]
      simp
    · exact joins_congr (by rw [purpose?_repurpose, if_neg same])
  | @told w t position waiting mustCancel task =>
    have grown := Grown.repurpose (q := .task position waiting true) task rfl
    exact h.tasked [] ⟨mustCancel, task⟩ grown (jobs_repurpose _) (by simp)
      (fun g other => by rw [purpose?_repurpose, if_neg other]) fun g _ => settlement?_repurpose
  | trans _ _ ih ih' => exact ih' (ih h)

theorem fresh (h : w.Fresh) : Joints w := by
  have jobs : w.jobs = [] := by simp [jobs, h.agenda, h.futures]
  refine ⟨by simp [jobs], by simp [jobs], ?_, ?_⟩
  · rintro g cs k ⟨q, own⟩
    simp [purpose?, future?, h.futures] at own
  · rintro g cs k ⟨q, own⟩
    simp [purpose?, future?, h.futures] at own

theorem move {plan : Plan} (h : Joints w) (roles : w.Roles) (tasks : w.Tasks) (steady : w.Steady)
    (m : Move plan w w') : Joints w' := by
  have grown := m.grown steady
  cases m with
  | stepped stepped => exact h.change roles tasks (step_change steady stepped)
  | supplied heap => exact h.of_futures grown rfl (.refl _)
  | called r caller =>
    refine h.adds grown (.newTask ?_)
    cases r <;> simp_all [Routine.isCaller, Routine.begins]
  | observed f =>
    exact h.keep [.stop] grown jobs_onSettled (by simp [Job.counts])
      (fun _ _ _ => joins_congr purpose?_onSettled) fun _ _ _ _ => settlement?_onSettled
  | cleared => exact h.of_futures grown rfl (.refl _)
  | cancelled f => exact h.interrupted (cancel_interrupted f)
  | turned => exact h.of_futures grown rfl jobs_beginTurn.subperm
  | opened n _ _ _ => exact h.of_futures grown rfl (jobs_openLoop n)
  | closed _ => exact h.of_futures grown rfl jobs_dropLoop

end Joints

end Conductor.World
