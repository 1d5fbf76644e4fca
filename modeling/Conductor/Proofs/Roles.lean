import Conductor.Proofs.Lanes
import Mathlib.Data.List.Nodup

/-!
# What futures are there for

Whoever refers to a future refers to one of the right kind: a descriptor to a report, a run to its
outcome, a timer to a future that it settles. New futures are all that an effect makes jobs for; a
task or a joint future that there was is left alone.
-/

namespace Conductor

def Job.signals (t : FutureId) : Job → Bool
  | .resume u | .wake u _ => u == t
  | _ => false

def Job.counts (g c : FutureId) : Job → Bool
  | .childEnded g' c' => g' == g && c' == c
  | _ => false

namespace World

structure Roles (w : World) : Prop where
  firsts : ∀ c f, w.first? c = some f → w.kind? f = some (.plain .report)
  outcomes : ∀ run f, w.outcome? run = some f → w.kind? f = some (.plain (.outcome run))
  settles : ∀ f how, .settle f how ∈ w.jobs → w.kind? f = some (.plain .timed)
  releases : ∀ g f, .release g f ∈ w.jobs → w.kind? g = some (.plain (.waiter f))

/-- What an effect that leads from one state to another may add a job for: a future that is new. -/
def Opened (w w' : World) : Job → Prop
  | .resume t => w.futures.size ≤ t ∧ ∃ r, w'.purpose? t = some (.task (.unstarted r) none false)
  | .childEnded g c => w.futures.size ≤ g ∧
    ∃ children, w'.purpose? g = some (.joint children 0 false) ∧ c ∈ children
  | .release g f => w.futures.size ≤ g ∧ w'.kind? g = some (.plain (.waiter f))
  | .settle f _ => w.futures.size ≤ f ∧ w'.kind? f = some (.plain .timed)
  | .bodyEnded _ _ _ _ _ | .callback _ _ => True
  | .wake _ _ | .stop => False

def Begins (w : World) (f : FutureId) : Purpose → Prop
  | .plain _ => True
  | .task p waiting mustCancel => w.settlement? f = none ∧ waiting = none ∧ mustCancel = false ∧
    ∃ r, p = .unstarted r ∧ r.begins
  | .joint children ended requested => ended = 0 ∧ requested = false ∧
    (w.settlement? f = none ∨ children = [])

structure Adds (new : List Job) (w w' : World) : Prop where
  jobs : w'.jobs.Subperm (new ++ w.jobs)
  opened : ∀ j ∈ new, Opened w w' j
  signals : ∀ t, new.countP (Job.signals t) ≤ 1
  counts : ∀ g c, new.countP (Job.counts g c) ≤ 1
  purposes : ∀ f p, w.purpose? f = some p → w'.purpose? f = some p
  begins : ∀ f p, w.futures.size ≤ f → w'.purpose? f = some p → w'.Begins f p
  untouched : ∀ f p, w.purpose? f = some p → (∀ role, p ≠ .plain role) →
    w'.settlement? f = w.settlement? f

variable {w w' : World} {f g : FutureId} {j : Job} {s : Settlement} {new : List Job}

theorem Opened.fresh {w₁ : World} {t : FutureId} (opened : Opened w₁ w' j) (signal : j.signals t) :
    w₁.futures.size ≤ t ∧ t < w'.futures.size := by
  cases j with
  | resume u =>
    obtain rfl : u = t := by simpa [Job.signals] using signal
    obtain ⟨fresh, r, own⟩ := opened
    exact ⟨fresh, purpose?_lt own⟩
  | wake _ _ => exact opened.elim
  | _ => simp [Job.signals] at signal

theorem Opened.freshJoint {w₁ : World} {c : FutureId} (opened : Opened w₁ w' j)
    (count : j.counts g c) : w₁.futures.size ≤ g ∧ g < w'.futures.size := by
  cases j with
  | childEnded g' c' =>
    obtain ⟨rfl, rfl⟩ : g' = g ∧ c' = c := by simpa [Job.counts] using count
    obtain ⟨fresh, children, own, -⟩ := opened
    exact ⟨fresh, purpose?_lt own⟩
  | _ => simp [Job.counts] at count

theorem Opened.mono {w₁ w₂ w₃ : World} (opened : Opened w₁ w₂ j)
    (purposes : ∀ f p, w₂.purpose? f = some p → w₃.purpose? f = some p) : Opened w₁ w₃ j := by
  cases j with
  | resume t =>
    obtain ⟨fresh, r, own⟩ := opened
    exact ⟨fresh, r, purposes _ _ own⟩
  | childEnded g c =>
    obtain ⟨fresh, children, own, member⟩ := opened
    exact ⟨fresh, children, purposes _ _ own, member⟩
  | release g f =>
    exact ⟨opened.1, kind?_of_purpose? (purposes _ _ (plain_of_kind? opened.2))⟩
  | settle f how =>
    exact ⟨opened.1, kind?_of_purpose? (purposes _ _ (plain_of_kind? opened.2))⟩
  | wake _ _ => exact opened.elim
  | stop => exact opened.elim
  | _ => trivial

theorem Opened.earlier {w₁ w₂ : World} (opened : Opened w₂ w' j)
    (size : w₁.futures.size ≤ w₂.futures.size) : Opened w₁ w' j := by
  cases j with
  | resume t => exact ⟨Nat.le_trans size opened.1, opened.2⟩
  | childEnded g c => exact ⟨Nat.le_trans size opened.1, opened.2⟩
  | release g f => exact ⟨Nat.le_trans size opened.1, opened.2⟩
  | settle f how => exact ⟨Nat.le_trans size opened.1, opened.2⟩
  | _ => exact opened

namespace Adds

theorem refl (w : World) : Adds [] w w :=
  ⟨.refl _, by simp, by simp, by simp, fun _ _ own => own,
    fun f _ fresh own => absurd (purpose?_lt own) (Nat.not_lt.mpr fresh), fun _ _ _ _ => rfl⟩

theorem trans {w₁ w₂ w₃ : World} {new₁ new₂ : List Job} (h : Adds new₁ w₁ w₂)
    (h' : Adds new₂ w₂ w₃) : Adds (new₂ ++ new₁) w₁ w₃ := by
  have size : w₁.futures.size ≤ w₂.futures.size := by
    by_contra less
    obtain ⟨p, own⟩ := purpose?_isSome (Nat.lt_of_not_le less)
    exact Nat.lt_irrefl _ (purpose?_lt (h.purposes _ p own))
  -- what the second effect opens is beyond what the first has made
  have apart {p : Job → Bool} (none₁ : (∃ j ∈ new₁, p j) → ¬ ∃ j ∈ new₂, p j)
      (le₁ : new₁.countP p ≤ 1) (le₂ : new₂.countP p ≤ 1) : (new₂ ++ new₁).countP p ≤ 1 := by
    rw [List.countP_append]
    by_cases some : ∃ j ∈ new₁, p j
    · have zero : new₂.countP p = 0 := List.countP_eq_zero.mpr fun j member own =>
        none₁ some ⟨j, member, own⟩
      omega
    · have zero : new₁.countP p = 0 := List.countP_eq_zero.mpr fun j member own =>
        some ⟨j, member, own⟩
      omega
  refine ⟨?_, ?_, fun t => ?_, fun g c => ?_, ?_, ?_, ?_⟩
  · rw [List.append_assoc]
    exact h'.jobs.trans ((List.subperm_append_left new₂).mpr h.jobs)
  · intro j member
    rcases List.mem_append.mp member with later | first
    · exact (h'.opened j later).earlier size
    · exact (h.opened j first).mono h'.purposes
  · refine apart ?_ (h.signals t) (h'.signals t)
    rintro ⟨j, member, own⟩ ⟨k, member', own'⟩
    exact Nat.not_lt.mpr ((h'.opened k member').fresh own').1 ((h.opened j member).fresh own).2
  · refine apart ?_ (h.counts g c) (h'.counts g c)
    rintro ⟨j, member, own⟩ ⟨k, member', own'⟩
    exact Nat.not_lt.mpr ((h'.opened k member').freshJoint own').1
      ((h.opened j member).freshJoint own).2
  · exact fun f p own => h'.purposes f p (h.purposes f p own)
  · intro f p fresh own
    by_cases old : f < w₂.futures.size
    · obtain ⟨q, own'⟩ := purpose?_isSome old
      obtain rfl : q = p := Option.some.inj ((h'.purposes f q own').symm.trans own)
      have begun := h.begins f q fresh own'
      cases q with
      | plain _ => trivial
      | task _ _ _ => exact ⟨(h'.untouched f _ own' (by simp)).trans begun.1, begun.2⟩
      | joint _ _ _ =>
        obtain ⟨none, unasked, open_⟩ := begun
        refine ⟨none, unasked, open_.imp_left fun pending => ?_⟩
        exact (h'.untouched f _ own' (by simp)).trans pending
    · exact h'.begins f p (Nat.le_of_not_lt old) own
  · intro f p own shared
    exact (h'.untouched f p (h.purposes f p own) shared).trans (h.untouched f p own shared)

theorem opening {w₁ : World} (h : Adds [] w w₁) (jobs : w'.jobs.Subperm (new ++ w₁.jobs))
    (opened : ∀ j ∈ new, Opened w w' j) (signals : ∀ t, new.countP (Job.signals t) ≤ 1)
    (counts : ∀ g c, new.countP (Job.counts g c) ≤ 1)
    (purposes : ∀ f, w'.purpose? f = w₁.purpose? f)
    (settlements : ∀ f, w'.settlement? f = w₁.settlement? f) : Adds new w w' := by
  refine ⟨?_, opened, signals, counts, ?_, ?_, ?_⟩
  · exact jobs.trans ((List.subperm_append_left new).mpr h.jobs)
  · exact fun f p own => (purposes f).trans (h.purposes f p own)
  · intro f p fresh own
    have begun := h.begins f p fresh ((purposes f).symm.trans own)
    cases p with
    | plain _ => trivial
    | task _ _ _ => exact ⟨(settlements f).trans begun.1, begun.2⟩
    | joint _ _ _ =>
      exact ⟨begun.1, begun.2.1, begun.2.2.imp_left fun pending => (settlements f).trans pending⟩
  · exact fun f p own shared => (settlements f).trans (h.untouched f p own shared)

theorem of_agenda (futures : w'.futures = w.futures) (agenda : w'.agenda = w.agenda) :
    Adds [] w w' :=
  (refl w).opening (jobs_congr futures agenda ▸ .refl _) (by simp) (by simp) (by simp)
    (fun f => by rw [purpose?, future?, futures]; rfl) (fun f => settlement?_congr futures)

theorem newFuture {purpose : Purpose} (begins : (w.newFuture purpose).2.Begins w.futures.size purpose) :
    Adds [] w (w.newFuture purpose).2 := by
  refine ⟨?_, by simp, by simp, by simp, ?_, ?_, ?_⟩
  · rw [jobs_newFuture]
    exact .refl _
  · intro f p own
    have old : f ≠ w.futures.size := Nat.ne_of_lt (purpose?_lt own)
    rw [purpose?_newFuture, if_neg old]
    exact own
  · intro f p fresh own
    rw [purpose?_newFuture] at own
    split at own
    · rename_i same
      obtain rfl := Option.some.inj own
      exact same ▸ begins
    · exact absurd (purpose?_lt own) (Nat.not_lt.mpr fresh)
  · exact fun f p _ _ => settlement?_newFuture purpose

theorem newPlain (role : Role) : Adds [] w (w.newFuture (.plain role)).2 := newFuture trivial

theorem settle {role : Role} (plain : w.kind? f = some (.plain role)) :
    Adds [] w (w.settle f s) := by
  refine ⟨jobs_settle, by simp, by simp, by simp, ?_, ?_, ?_⟩
  · exact fun f p own => purpose?_settle.trans own
  · exact fun f p fresh own =>
      absurd (purpose?_lt (purpose?_settle.symm.trans own)) (Nat.not_lt.mpr fresh)
  · intro g p own shared
    refine settlement?_settle_other fun same => ?_
    subst same
    exact shared role (Option.some.inj (own.symm.trans (plain_of_kind? plain)))

theorem post {loop : Nat} (opened : Opened w (w.post loop j) j) : Adds [j] w (w.post loop j) :=
  (refl w).opening (jobs_post loop) (by simpa using opened)
    (fun t => List.countP_le_length) (fun g c => List.countP_le_length)
    (fun _ => purpose?_post loop) (fun _ => settlement?_post loop)

theorem schedule {ticks : Nat} (opened : Opened w (w.schedule ticks j) j) :
    Adds [j] w (w.schedule ticks j) :=
  (refl w).opening (jobs_schedule ticks) (by simpa using opened)
    (fun t => List.countP_le_length) (fun g c => List.countP_le_length) (fun _ => rfl) (fun _ => rfl)

theorem onSettled (opened : Opened w (w.onSettled f j) j) : Adds [j] w (w.onSettled f j) :=
  (refl w).opening jobs_onSettled (by simpa using opened)
    (fun t => List.countP_le_length) (fun g c => List.countP_le_length)
    (fun _ => purpose?_onSettled) (fun _ => settlement?_onSettled)

theorem newTask {r : Routine} (begins : r.begins) :
    Adds [.resume w.futures.size] w (w.newTask r).2 := by
  have made : Adds [] w (w.newFuture (.task (.unstarted r) none false)).2 := by
    refine newFuture ⟨?_, rfl, rfl, r, rfl, begins⟩
    rw [settlement?_newFuture, settlement?, show w.future? w.futures.size = none from
      Array.getElem?_size]
    rfl
  refine made.opening (jobs_post _) ?_ (fun t => List.countP_le_length)
    (fun g c => List.countP_le_length) (fun _ => purpose?_post _) (fun _ => settlement?_post _)
  intro j member
  obtain rfl := List.mem_singleton.mp member
  exact ⟨Nat.le_refl _, r, by rw [purpose?_newTask, if_pos rfl]⟩

theorem registered (l : List FutureId) (w : World) (g : FutureId) :
    let w' := l.foldl (fun w child => w.onSettled child (.childEnded g child)) w
    w'.jobs.Subperm (l.map (.childEnded g) ++ w.jobs) ∧
      (∀ f, w'.purpose? f = w.purpose? f) ∧ ∀ f, w'.settlement? f = w.settlement? f := by
  induction l generalizing w with
  | nil => exact ⟨.refl _, fun _ => rfl, fun _ => rfl⟩
  | cons c rest ih =>
    obtain ⟨jobs, purposes, settlements⟩ := ih (w.onSettled c (.childEnded g c))
    refine ⟨?_, fun f => (purposes f).trans purpose?_onSettled,
      fun f => (settlements f).trans settlement?_onSettled⟩
    have first := (List.subperm_append_left (rest.map (Job.childEnded g))).mpr
      (jobs_onSettled (w := w) (f := c) (j := .childEnded g c))
    exact (jobs.trans first).trans List.perm_middle.subperm

theorem newJoint {chains : List FutureId} (distinct : chains.Nodup) :
    ∃ new, Adds new w (w.newJoint chains).2 := by
  have absent : w.settlement? w.futures.size = none := by
    rw [settlement?, show w.future? w.futures.size = none from Array.getElem?_size]
    rfl
  unfold World.newJoint
  dsimp only
  split
  · rename_i empty
    obtain rfl := List.isEmpty_iff.mp empty
    refine ⟨[], ?_, by simp, by simp, by simp, ?_, ?_, ?_⟩
    · exact jobs_newFuture (w := w) (.joint [] 0 false) ▸ jobs_settle
    · intro f p own
      rw [purpose?_settle, purpose?_newFuture, if_neg (Nat.ne_of_lt (purpose?_lt own))]
      exact own
    · intro f p fresh own
      rw [purpose?_settle, purpose?_newFuture] at own
      split at own
      · obtain rfl := Option.some.inj own
        exact ⟨rfl, rfl, .inr rfl⟩
      · exact absurd (purpose?_lt own) (Nat.not_lt.mpr fresh)
    · intro f p own _
      have old : f ≠ w.futures.size := Nat.ne_of_lt (purpose?_lt own)
      exact (settlement?_settle_other old).trans (settlement?_newFuture _)
  · obtain ⟨jobs, purposes, settlements⟩ := registered chains
      (w.newFuture (.joint chains 0 false)).2 w.futures.size
    have made : Adds [] w (w.newFuture (.joint chains 0 false)).2 :=
      newFuture ⟨rfl, rfl, .inl ((settlement?_newFuture _).trans absent)⟩
    refine ⟨_, made.opening jobs ?_ ?_ ?_ purposes settlements⟩
    · intro j member
      obtain ⟨c, inside, rfl⟩ := List.mem_map.mp member
      refine ⟨Nat.le_refl _, chains, ?_, inside⟩
      exact (purposes _).trans ((purpose?_newFuture _).trans (if_pos rfl))
    · intro t
      rw [List.countP_map, List.countP_eq_zero.mpr (by simp [Job.signals])]
      exact Nat.zero_le _
    · intro g c
      rw [List.countP_map]
      refine Nat.le_trans (List.countP_mono_left (q := (· == c)) fun d _ same => ?_)
        (List.nodup_iff_count_le_one.mp distinct c)
      simp only [Function.comp, Job.counts, Bool.and_eq_true] at same
      exact same.2

end Adds

namespace Roles

theorem adds (h : w.Roles) (added : Adds new w w')
    (firsts : ∀ c f, w'.first? c = some f → w.first? c = some f ∨ w'.kind? f = some (.plain .report))
    (outcomes : ∀ run f, w'.outcome? run = some f →
      w.outcome? run = some f ∨ w'.kind? f = some (.plain (.outcome run))) : w'.Roles := by
  have kept {f : FutureId} {role : Role} (kind : w.kind? f = some (.plain role)) :
      w'.kind? f = some (.plain role) :=
    kind?_of_purpose? (added.purposes f _ (plain_of_kind? kind))
  refine ⟨fun c f own => ?_, fun run f own => ?_, fun f how member => ?_, fun g f member => ?_⟩
  · exact (firsts c f own).elim (fun old => kept (h.firsts c f old)) id
  · exact (outcomes run f own).elim (fun old => kept (h.outcomes run f old)) id
  · rcases List.mem_append.mp (added.jobs.subset member) with new | old
    · exact (added.opened _ new).2
    · exact kept (h.settles f how old)
  · rcases List.mem_append.mp (added.jobs.subset member) with new | old
    · exact (added.opened _ new).2
    · exact kept (h.releases g f old)

theorem adds_same (h : w.Roles) (added : Adds new w w') (same : SameRuns w w') : w'.Roles :=
  h.adds added (fun c _ own => .inl ((first?_of_map same.firsts c).symm.trans own))
    fun run _ own => .inl ((outcome?_of_map (same.records ▸ rfl) run).symm.trans own)

theorem scripted (h : w.Roles) (s : Scripted w w') : w'.Roles ∧ ∃ new, Adds new w w' := by
  have only {w w' : World} {new : List Job} (h : w.Roles) (s : Scripted w w')
      (added : Adds new w w') : w'.Roles ∧ ∃ new, Adds new w w' :=
    ⟨h.adds_same added s.sameRuns, new, added⟩
  induction s with
  | aside same futures agenda more => exact only h (.aside same futures agenda more) (.of_agenda futures agenda)
  | @reported w c x f r known own =>
    exact only h (.reported r known own) (.settle (h.firsts c f (first?_of_known known own)))
  | postponed ticks scope steps => exact only h (.postponed ticks scope steps) (.schedule trivial)
  | queued scope steps => exact only h (.queued scope steps) (.post trivial)
  | made => exact only h .made (.newPlain .timed)
  | @timed w ticks how =>
    have opened : ∀ j ∈ [Job.settle w.futures.size how],
        Opened w ((w.newFuture (.plain .timed)).2.schedule ticks (.settle w.futures.size how)) j := by
      intro j member
      obtain rfl := List.mem_singleton.mp member
      refine ⟨Nat.le_refl _, kind?_of_purpose? (p := .plain .timed) ?_⟩
      exact (purpose?_newFuture _).trans (if_pos rfl)
    exact only h (.timed ticks how) ((Adds.newPlain .timed).opening (jobs_schedule ticks) opened
      (fun t => List.countP_le_length) (fun g c => List.countP_le_length) (fun _ => rfl)
      (fun _ => rfl))
  | @settled w w' s proper same futures agenda heap =>
    have made : Adds [] w w' := (Adds.newPlain .timed).trans (.of_agenda futures agenda)
    have own : w'.purpose? w.futures.size = some (.plain .timed) := by
      rw [purpose?, future?, futures]
      exact (purpose?_newFuture _).trans (if_pos rfl)
    exact only h (.settled s proper same futures agenda heap)
      (made.trans (.settle (kind?_of_purpose? own)))
  | trans _ _ ih ih' =>
    obtain ⟨roles, new, added⟩ := ih h
    obtain ⟨roles', new', added'⟩ := ih' roles
    exact ⟨roles', new' ++ new, added.trans added'⟩

theorem newCompletion (h : w.Roles) (d : Descriptor) :
    (w.newCompletion d).2.Roles ∧ ∃ new, Adds new w (w.newCompletion d).2 := by
  have pushed {w : World} {x : Completion} {c : CompletionId} {f : FutureId}
      (own : (w.addCompletion x).first? c = some f) : w.first? c = some f ∨ x.future? = some f := by
    unfold first? completion? addCompletion at own
    rw [Array.getElem?_push] at own
    split at own
    · exact .inr own
    · exact .inl own
  obtain ⟨r, other, same⟩ | same := newCompletion_cases (w := w) (d := d) <;> rw [same]
  · have added : Adds [] w (w.addCompletion ⟨d, r⟩) := .of_agenda rfl rfl
    refine ⟨h.adds added (fun c f own => ?_) fun run f own => .inl own, [], added⟩
    rcases pushed own with old | new
    · exact .inl old
    · cases r <;> simp_all [Completion.future?]
  · have aside : Adds [] (w.newFuture (.plain .report)).2
        ((w.newFuture (.plain .report)).2.addCompletion ⟨d, .first w.futures.size⟩) :=
      .of_agenda rfl rfl
    have added : Adds [] w ((w.newFuture (.plain .report)).2.addCompletion
        ⟨d, .first w.futures.size⟩) :=
      (Adds.newPlain .report).trans aside
    refine ⟨h.adds added (fun c f own => ?_) fun run f own => .inl own, [], added⟩
    rcases pushed own with old | new
    · exact .inl old
    · obtain rfl : w.futures.size = f := by simpa [Completion.future?] using new
      exact .inr (kind?_of_purpose? (p := .plain .report) ((purpose?_newFuture _).trans (if_pos rfl)))

theorem addRecord (h : w.Roles) {r : Record} (own : r.outcome = w.futures.size) :
    let w' := (w.newFuture (.plain (.outcome w.records.size))).2.addRecord r
    w'.Roles ∧ ∃ new, Adds new w w' := by
  have aside : Adds [] (w.newFuture (.plain (.outcome w.records.size))).2
      ((w.newFuture (.plain (.outcome w.records.size))).2.addRecord r) := .of_agenda rfl rfl
  have added := (Adds.newPlain (w := w) (.outcome w.records.size)).trans aside
  refine ⟨h.adds added (fun c f first => .inl first) fun run f outcome => ?_, [], added⟩
  unfold outcome? record? World.addRecord at outcome
  rw [Array.getElem?_push] at outcome
  split at outcome
  · rename_i new
    obtain rfl : r.outcome = f := by simpa using outcome
    refine .inr (kind?_of_purpose? (p := .plain (.outcome run)) ?_)
    exact (purpose?_newFuture _).trans (by rw [if_pos own, new]; rfl)
  · exact .inl outcome

theorem of_loop (h : w.Roles) (same : SameLoop w w') : w'.Roles ∧ Adds [] w w' := by
  have added := Adds.of_agenda same.futures same.agenda
  exact ⟨h.adds added (fun c _ own => .inl ((first?_of_map same.firsts c).symm.trans own))
    fun run _ own => .inl ((outcome?_of_map same.outcomes run).symm.trans own), added⟩

theorem effect {notes : List Note} {tasks : List (FutureId × Routine)} (h : w.Roles)
    (e : Effect notes tasks w w') : w'.Roles ∧ ∃ new, Adds new w w' := by
  have only {w w' : World} {new : List Job} (h : w.Roles) (same : SameRuns w w')
      (added : Adds new w w') : w'.Roles ∧ ∃ new, Adds new w w' :=
    ⟨h.adds_same added same, new, added⟩
  induction e with
  | kept d =>
    obtain ⟨roles, added⟩ := h.of_loop d.loop
    exact ⟨roles, [], added⟩
  | scripted s => exact h.scripted s
  | described d => exact h.newCompletion d
  | recorded r own _ => exact h.addRecord own
  | tasked r begins => exact only h (newTask_sameRuns r) (.newTask begins)
  | @watched w f run node c explicit _ =>
    obtain ⟨roles, added⟩ := h.of_loop (note_loop run (.began node.head (some f)))
    have watched : Adds [.bodyEnded run node c explicit f] (w.note run (.began node.head (some f)))
        ((w.note run (.began node.head (some f))).onSettled f (.bodyEnded run node c explicit f)) :=
      .onSettled trivial
    exact ⟨roles.adds_same watched onSettled_sameRuns, _, added.trans watched⟩
  | joined distinct _ =>
    obtain ⟨new, added⟩ := Adds.newJoint (w := _) distinct
    exact only h (newJoint_sameRuns _) added
  | @waited w f =>
    have opened : ∀ j ∈ [Job.release w.futures.size f], Opened w
        ((w.newFuture (.plain (.waiter f))).2.onSettled f (.release w.futures.size f)) j := by
      intro j member
      obtain rfl := List.mem_singleton.mp member
      refine ⟨Nat.le_refl _, kind?_of_purpose? (p := .plain (.waiter f)) ?_⟩
      exact purpose?_onSettled.trans ((purpose?_newFuture _).trans (if_pos rfl))
    exact only h ((newFuture_sameRuns _).trans onSettled_sameRuns)
      ((Adds.newPlain _).opening jobs_onSettled opened (fun t => List.countP_le_length)
        (fun g c => List.countP_le_length) (fun _ => purpose?_onSettled)
        fun _ => settlement?_onSettled)
  | @concluded w run r s v known _ _ =>
    obtain ⟨roles, added⟩ := h.of_loop (setStatus_loop run s)
    have outcome : (w.setStatus run s).outcome? run = some r.outcome := by
      rw [outcome?, record?_setStatus, if_pos rfl, known]
      rfl
    have settled := Adds.settle (s := v) (roles.outcomes run r.outcome outcome)
    exact ⟨roles.adds_same settled settle_sameRuns, _, added.trans settled⟩
  | @failed w c x f known own e _ =>
    exact only h settle_sameRuns (.settle (h.firsts c f (first?_of_known known own)))
  | trans _ _ ih ih' =>
    obtain ⟨roles, new, added⟩ := ih h
    obtain ⟨roles', new', added'⟩ := ih' roles
    exact ⟨roles', new' ++ new, added.trans added'⟩

theorem keep (h : w.Roles) (grown : Grown w w')
    (firsts : w'.completions.map Completion.future? = w.completions.map Completion.future?)
    (records : w'.records = w.records)
    (jobs : ∀ j ∈ w'.jobs, j ∈ w.jobs ∨ (∀ f how, j ≠ .settle f how) ∧ ∀ g f, j ≠ .release g f) :
    w'.Roles := by
  refine ⟨fun c f own => ?_, fun run f own => ?_, fun f how member => ?_, fun g f member => ?_⟩
  · exact grown.kinds f _ (h.firsts c f ((first?_of_map firsts c).symm.trans own))
  · exact grown.kinds f _ (h.outcomes run f ((outcome?_of_map (records ▸ rfl) run).symm.trans own))
  · rcases jobs _ member with old | ⟨other, -⟩
    · exact grown.kinds f _ (h.settles f how old)
    · exact absurd rfl (other f how)
  · rcases jobs _ member with old | ⟨-, other⟩
    · exact grown.kinds g _ (h.releases g f old)
    · exact absurd rfl (other g f)

theorem shrink (h : w.Roles) (grown : Grown w w')
    (firsts : w'.completions.map Completion.future? = w.completions.map Completion.future?)
    (records : w'.records = w.records) (jobs : w'.jobs ⊆ w.jobs) : w'.Roles :=
  h.keep grown firsts records fun _ member => .inl (jobs member)

theorem focusOn (h : w.Roles) (f : Focus) : (w.focusOn f).Roles :=
  ⟨h.firsts, h.outcomes, h.settles, h.releases⟩

theorem raisedTo (h : w.Roles) (n : Nat) : (w.raisedTo n).Roles :=
  ⟨h.firsts, h.outcomes, h.settles, h.releases⟩

theorem of_nextJob (h : w.Roles) (next : w.nextJob? = some (j, w')) : w'.Roles :=
  h.shrink (.nextJob next) (nextJob_sameRuns next).firsts (nextJob_sameRuns next).records
    (jobs_nextJob next ▸ List.subset_cons_self _ _)

theorem setPosition (h : w.Roles) (t : FutureId) (p : Position) (waiting : Option FutureId) :
    (w.setPosition t p waiting).Roles :=
  h.shrink (.setPosition p waiting) (setPosition_sameRuns p waiting).firsts
    (setPosition_sameRuns p waiting).records (jobs_setPosition p waiting).subset

theorem onSettled (h : w.Roles) (other : ∀ f how, j ≠ .settle f how) (other' : ∀ g f, j ≠ .release g f) :
    (w.onSettled f j).Roles := by
  refine h.keep .onSettled onSettled_sameRuns.firsts onSettled_sameRuns.records fun k member => ?_
  rcases List.mem_cons.mp (jobs_onSettled.subset member) with rfl | old
  · exact .inr ⟨other, other'⟩
  · exact .inl old

theorem settle (h : w.Roles) : (w.settle f s).Roles :=
  h.shrink .settle settle_sameRuns.firsts settle_sameRuns.records jobs_settle.subset

theorem repurpose (h : w.Roles) {p q : Purpose} (own : w.purpose? f = some p)
    (same : q.kind = p.kind) : (w.repurpose f q).Roles :=
  h.shrink (.repurpose own same) rfl rfl (jobs_repurpose q).subset

theorem handover (h : w.Roles) (past : Handover w w') : w'.Roles := by
  cases past with
  | focused f _ _ _ => exact h.focusOn f
  | suspended _ _ => exact ((h.setPosition _ _ _).onSettled (by simp) (by simp)).focusOn .idle
  | @yielded t stack _ =>
    refine Roles.focusOn ?_ .idle
    refine (h.setPosition t _ _).keep (.post _) (post_sameRuns _).firsts (post_sameRuns _).records
      fun k member => ?_
    rcases List.mem_cons.mp ((jobs_post _).subset member) with rfl | old
    · exact .inr ⟨by simp, by simp⟩
    · exact .inl old
  | ended _ => exact ((h.setPosition _ _ _).settle).focusOn .idle

theorem resumeTask (h : w.Roles) (t : FutureId) (o : Outcome) : (w.resumeTask t o).Roles := by
  obtain same | ⟨p, waiting, m, f, n, o', -, own, -, same, -⟩ :=
    resumeTask_cases (w := w) t o <;> rw [same]
  · exact h
  · exact ((h.repurpose (q := .task .active none false) own rfl).raisedTo n).focusOn f

theorem childEnded (h : w.Roles) (g c : FutureId) : (w.childEnded g c).Roles := by
  obtain same | ⟨children, ended, requested, s, n, -, own, result⟩ := childEnded_cases (w := w) g c
  · rw [same]
    exact h
  · have counted := h.repurpose (q := .joint children (ended + 1) requested) own rfl
    obtain ⟨same, -⟩ | ⟨s', same, -, -⟩ := result _ rfl <;> rw [same]
    · exact counted
    · exact (counted.raisedTo n).settle

theorem handled (h : w.Roles) (rest : Handled j w w') : w'.Roles := by
  cases rest with
  | effect e _ => exact (h.effect e).1
  | resumed => exact h.resumeTask _ _
  | woken _ => exact ((h.effect (.deliver _)).1).resumeTask _ _
  | counted => exact h.childEnded _ _
  | freed => exact h.settle
  | matured n _ => exact (h.raisedTo n).settle
  | stopped => exact ⟨h.firsts, h.outcomes, h.settles, h.releases⟩

theorem beginTurn (h : w.Roles) : w.beginTurn.Roles :=
  h.shrink (.aside rfl rfl rfl rfl) rfl rfl jobs_beginTurn.subset

theorem nextTurn (h : w.Roles) (next : w.nextTurn? = some w') : w'.Roles := by
  obtain ⟨_, -, rfl⟩ := nextTurn_cases next
  exact beginTurn ⟨h.firsts, h.outcomes, h.settles, h.releases⟩

theorem change (h : w.Roles) (c : Change w w') : w'.Roles := by
  cases c with
  | worked e past => exact (h.effect e).1.handover past
  | handled _ next rest => exact (h.of_nextJob next).handled rest
  | turned _ next => exact h.nextTurn next

theorem interrupted (h : w.Roles) (i : Interrupted w w') : w'.Roles := by
  induction i with
  | refl _ => exact h
  | settled _ => exact h.settle
  | asked joint => exact h.repurpose joint rfl
  | told task => exact h.repurpose task rfl
  | trans _ _ ih ih' => exact ih' (ih h)

theorem fresh (h : w.Fresh) : w.Roles := by
  have jobs : w.jobs = [] := by simp [jobs, h.agenda, h.futures]
  refine ⟨fun c f own => ?_, fun run f own => ?_, by simp [jobs], by simp [jobs]⟩
  · simp [first?, completion?, h.completions] at own
  · simp [outcome?, record?, h.records] at own

theorem move {plan : Plan} (h : w.Roles) (steady : w.Steady) (m : Move plan w w') : w'.Roles := by
  cases m with
  | stepped stepped => exact h.change (step_change steady stepped)
  | supplied heap => exact ⟨h.firsts, h.outcomes, h.settles, h.releases⟩
  | called r _ =>
    refine h.keep (.newTask r) (newTask_sameRuns r).firsts (newTask_sameRuns r).records fun k member => ?_
    rcases List.mem_cons.mp ((jobs_newTask r).subset member) with rfl | old
    · exact .inr ⟨by simp, by simp⟩
    · exact .inl old
  | observed f => exact h.onSettled (by simp) (by simp)
  | cleared => exact ⟨h.firsts, h.outcomes, h.settles, h.releases⟩
  | cancelled f => exact h.interrupted (cancel_interrupted f)
  | turned => exact h.beginTurn
  | opened n _ _ _ =>
    exact h.shrink (.aside rfl rfl rfl rfl) rfl rfl (jobs_openLoop n).subset
  | closed _ =>
    exact h.shrink (.aside rfl rfl rfl rfl) rfl rfl jobs_dropLoop.subset

end Roles

end World

end Conductor
