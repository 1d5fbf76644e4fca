import Conductor.Proofs.Roles

/-!
# Where tasks stand

At most one job lets a task go on, and it is the one that the task waits for: a task never goes on
with something else, or twice. The task at work has not ended, and no job is about it.
-/

namespace Conductor.World

def Stands (w : World) (t : FutureId) (p : Position) (waiting : Option FutureId) : Prop :=
  ∃ mustCancel, w.purpose? t = some (.task p waiting mustCancel)

def Expects (w : World) (t : FutureId) : Job → Prop
  | .resume _ => (∃ r, w.Stands t (.unstarted r) none) ∨ ∃ stack, w.Stands t (.suspended stack) none
  | .wake _ f => ∃ stack, w.Stands t (.suspended stack) (some f)
  | _ => False

structure Tasks (w : World) : Prop where
  once : ∀ t, w.jobs.countP (Job.signals t) ≤ 1
  expects : ∀ j ∈ w.jobs, ∀ t, j.signals t → w.Expects t j
  focus : ∀ t, w.focus.task? = some t → w.settlement? t = none ∧ w.Stands t .active none
  begins : ∀ t r waiting, w.Stands t (.unstarted r) waiting → r.begins

variable {w w' : World} {t f g : FutureId} {j : Job} {s : Settlement} {new : List Job}
  {p : Position} {waiting : Option FutureId}

theorem Stands.unique {q : Position} {waiting' : Option FutureId} (h : w.Stands t p waiting)
    (h' : w.Stands t q waiting') : p = q ∧ waiting = waiting' := by
  obtain ⟨m, own⟩ := h
  obtain ⟨m', own'⟩ := h'
  rw [own] at own'
  simp only [Option.some.injEq, Purpose.task.injEq] at own'
  exact ⟨own'.1, own'.2.1⟩

theorem Stands.lt (h : w.Stands t p waiting) : t < w.futures.size := by
  obtain ⟨m, own⟩ := h
  exact purpose?_lt own

theorem purpose?_congr (futures : w'.futures = w.futures) : w'.purpose? f = w.purpose? f := by
  simp [purpose?, future?, futures]

theorem stands_congr (same : w'.purpose? t = w.purpose? t) :
    w'.Stands t p waiting ↔ w.Stands t p waiting := by
  unfold Stands
  rw [same]

theorem purpose?_setPosition_self {q : Position} {before : Option FutureId} {m : Bool}
    (own : w.purpose? t = some (.task q before m)) :
    (w.setPosition t p waiting).purpose? t = some (.task p waiting m) := by
  unfold setPosition
  rw [own, purpose?_repurpose, if_pos rfl, own]
  rfl

theorem stands_setPosition {q : Position} {before : Option FutureId} (there : w.Stands t q before)
    (p : Position) (waiting : Option FutureId) :
    (w.setPosition t p waiting).Stands t p waiting := by
  obtain ⟨m, own⟩ := there
  exact ⟨m, purpose?_setPosition_self own⟩

theorem purpose?_setPosition_other (p : Position) (waiting : Option FutureId) (other : g ≠ t) :
    (w.setPosition t p waiting).purpose? g = w.purpose? g := by
  unfold setPosition
  split
  · rw [purpose?_repurpose, if_neg other]
  · rfl

theorem settlement?_setPosition (p : Position) (waiting : Option FutureId) :
    (w.setPosition t p waiting).settlement? g = w.settlement? g := by
  unfold setPosition
  split
  · exact settlement?_repurpose
  · rfl

theorem Expects.mono (h : w.Expects t j)
    (kept : ∀ p waiting, p ≠ .active → w.Stands t p waiting → w'.Stands t p waiting) :
    w'.Expects t j := by
  cases j with
  | resume u =>
    rcases h with ⟨r, stands⟩ | ⟨stack, stands⟩
    · exact .inl ⟨r, kept _ _ (by simp) stands⟩
    · exact .inr ⟨stack, kept _ _ (by simp) stands⟩
  | wake u f =>
    obtain ⟨stack, stands⟩ := h
    exact ⟨stack, kept _ _ (by simp) stands⟩
  | _ => exact h.elim

theorem Expects.stands (h : w.Expects t j) : ∃ p waiting, p ≠ .active ∧ w.Stands t p waiting := by
  cases j with
  | resume u =>
    rcases h with ⟨r, stands⟩ | ⟨stack, stands⟩
    · exact ⟨_, _, by simp, stands⟩
    · exact ⟨_, _, by simp, stands⟩
  | wake u f =>
    obtain ⟨stack, stands⟩ := h
    exact ⟨_, _, by simp, stands⟩
  | _ => exact h.elim

namespace Tasks

theorem silent (h : Tasks w) (active : w.Stands t .active waiting) :
    ∀ j ∈ w.jobs, j.signals t = false := by
  intro j member
  by_contra signal
  obtain ⟨p, waiting', other, stands⟩ := (h.expects j member t (by simpa using signal)).stands
  exact other (stands.unique active).1

theorem keep (h : Tasks w) (jobs : w'.jobs.Subperm w.jobs)
    (stands : ∀ t p waiting, w'.Stands t p waiting ↔ w.Stands t p waiting)
    (focus : w'.focus.task? = w.focus.task?)
    (settlements : ∀ t p waiting, w.Stands t p waiting → w'.settlement? t = w.settlement? t) :
    Tasks w' := by
  refine ⟨fun t => ?_, ?_, ?_, ?_⟩
  · exact Nat.le_trans (jobs.countP_le _) (h.once t)
  · intro j member t signal
    exact (h.expects j (jobs.subset member) t signal).mono fun p waiting _ => (stands t p waiting).mpr
  · intro t busy
    obtain ⟨running, active⟩ := h.focus t (focus ▸ busy)
    exact ⟨(settlements t _ _ active).trans running, (stands t _ _).mpr active⟩
  · exact fun t r waiting there => h.begins t r waiting ((stands t _ _).mp there)

/-- A task that no job is about comes to stand elsewhere, perhaps with a job that it waits for. -/
theorem shift (h : Tasks w) (new : List Job) (t : FutureId) (silent : ∀ j ∈ w.jobs, j.signals t = false)
    (jobs : w'.jobs.Subperm (new ++ w.jobs)) (short : new.length ≤ 1)
    (own : ∀ j ∈ new, ∀ u, j.signals u → u = t ∧ w'.Expects t j)
    (others : ∀ u p waiting, u ≠ t → (w'.Stands u p waiting ↔ w.Stands u p waiting))
    (started : ∀ r waiting, ¬ w'.Stands t (.unstarted r) waiting)
    (focus : ∀ u, w'.focus.task? = some u → w'.settlement? u = none ∧ w'.Stands u .active none) :
    Tasks w' := by
  refine ⟨fun u => ?_, ?_, focus, ?_⟩
  · have most := jobs.countP_le (Job.signals u)
    rw [List.countP_append] at most
    by_cases same : u = t
    · subst same
      have zero : w.jobs.countP (Job.signals u) = 0 :=
        List.countP_eq_zero.mpr fun j member => by simp [silent j member]
      have one := List.countP_le_length (p := Job.signals u) (l := new)
      omega
    · have zero : new.countP (Job.signals u) = 0 :=
        List.countP_eq_zero.mpr fun j member signal => same (own j member u signal).1
      have one := h.once u
      omega
  · intro j member u signal
    rcases List.mem_append.mp (jobs.subset member) with fresh | old
    · obtain ⟨rfl, expects⟩ := own j fresh u signal
      exact expects
    · have other : u ≠ t := by
        rintro rfl
        simp [silent j old] at signal
      exact (h.expects j old u signal).mono fun p waiting _ => (others u p waiting other).mpr
  · intro u r waiting there
    have other : u ≠ t := by
      rintro rfl
      exact started r waiting there
    exact h.begins u r waiting ((others u _ _ other).mp there)

theorem adds (h : Tasks w) (added : Adds new w w') (focus : w'.focus = w.focus) : Tasks w' := by
  have kept (t : FutureId) (p : Position) (waiting : Option FutureId)
      (there : w.Stands t p waiting) : w'.Stands t p waiting := by
    obtain ⟨m, own⟩ := there
    exact ⟨m, added.purposes t _ own⟩
  refine ⟨fun t => ?_, ?_, ?_, ?_⟩
  · have most := added.jobs.countP_le (Job.signals t)
    rw [List.countP_append] at most
    by_cases some : ∃ j ∈ new, j.signals t
    · obtain ⟨j, member, signal⟩ := some
      have fresh := ((added.opened j member).fresh signal).1
      have zero : w.jobs.countP (Job.signals t) = 0 := by
        refine List.countP_eq_zero.mpr fun k member signal => ?_
        obtain ⟨p, waiting, -, stands⟩ := (h.expects k member t signal).stands
        exact Nat.not_lt.mpr fresh stands.lt
      have one := added.signals t
      omega
    · have zero : new.countP (Job.signals t) = 0 :=
        List.countP_eq_zero.mpr fun j member signal => some ⟨j, member, signal⟩
      have one := h.once t
      omega
  · intro j member t signal
    rcases List.mem_append.mp (added.jobs.subset member) with fresh | old
    · have opened := added.opened j fresh
      cases j with
      | resume u =>
        obtain rfl : u = t := by simpa [Job.signals] using signal
        obtain ⟨-, r, own⟩ := opened
        exact .inl ⟨r, false, own⟩
      | wake _ _ => exact opened.elim
      | _ => simp [Job.signals] at signal
    · exact (h.expects j old t signal).mono fun p waiting _ => kept t p waiting
  · intro t busy
    obtain ⟨running, active⟩ := h.focus t (focus ▸ busy)
    refine ⟨?_, kept t _ _ active⟩
    obtain ⟨m, own⟩ := active
    exact (added.untouched t _ own (by simp)).trans running
  · rintro t r waiting ⟨m, own⟩
    by_cases old : t < w.futures.size
    · obtain ⟨q, own'⟩ := purpose?_isSome old
      obtain rfl := Option.some.inj ((added.purposes t q own').symm.trans own)
      exact h.begins t r waiting ⟨m, own'⟩
    · obtain ⟨-, -, -, r', same, begins⟩ := added.begins t _ (Nat.le_of_not_lt old) own
      obtain rfl := Position.unstarted.inj same
      exact begins

theorem effect {notes : List Note} {tasks : List (FutureId × Routine)} (h : Tasks w) (roles : w.Roles)
    (e : Effect notes tasks w w') : Tasks w' := by
  obtain ⟨-, new, added⟩ := roles.effect e
  exact h.adds added e.focus

/-- The task at work is put aside, perhaps with a job that it waits for. -/
theorem putAside (h : Tasks w) (busy : w.focus.task? = some t) (p : Position) (waiting : Option FutureId)
    (new : List Job) (apart : ∀ r, p ≠ .unstarted r)
    (same : ∀ u, w'.purpose? u = (w.setPosition t p waiting).purpose? u)
    (jobs : w'.jobs.Subperm (new ++ (w.setPosition t p waiting).jobs)) (short : new.length ≤ 1)
    (own : w'.Stands t p waiting → ∀ j ∈ new, ∀ u, j.signals u → u = t ∧ w'.Expects t j)
    (idle : w'.focus.task? = none) : Tasks w' := by
  have active := (h.focus t busy).2
  have stands : w'.Stands t p waiting := (stands_congr (same t)).mpr (stands_setPosition active p waiting)
  have fewer := jobs.trans ((List.subperm_append_left new).mpr (jobs_setPosition p waiting))
  refine h.shift new t (h.silent active) fewer short (own stands) (fun u _ _ other => ?_) (fun r _ there => ?_) ?_
  · exact stands_congr ((same u).trans (purpose?_setPosition_other p waiting other))
  · exact apart r (stands.unique there).1
  · intro u there
    cases idle.symm.trans there

theorem handover (h : Tasks w) (past : Handover w w') : Tasks w' := by
  cases past with
  | focused f _ same _ => exact h.keep (.refl _) (fun _ _ _ => .rfl) same fun _ _ _ _ => rfl
  | @suspended t f stack busy pending =>
    refine h.putAside (by rw [busy]; rfl) (.suspended stack) (some f) [.wake t f] (by simp)
      (fun _ => purpose?_onSettled) (jobs_onSettled (w := w.setPosition t (.suspended stack) (some f)))
      (Nat.le_refl _) (fun stands j member u signal => ?_) rfl
    obtain rfl := List.mem_singleton.mp member
    exact ⟨(by simpa [Job.signals] using signal : t = u).symm, stack, stands⟩
  | @yielded t stack busy =>
    refine h.putAside (by rw [busy]; rfl) (.suspended stack) none [.resume t] (by simp)
      (fun _ => purpose?_post _) (jobs_post (w := w.setPosition t (.suspended stack) none) _)
      (Nat.le_refl _) (fun stands j member u signal => ?_) rfl
    obtain rfl := List.mem_singleton.mp member
    exact ⟨(by simpa [Job.signals] using signal : t = u).symm, .inr ⟨stack, stands⟩⟩
  | @ended t o busy =>
    exact h.putAside (by rw [busy]; rfl) .active none [] (by simp) (fun _ => purpose?_settle)
      (jobs_settle (w := w.setPosition t .active none)) (Nat.zero_le _) (fun _ j member => by simp at member) rfl

theorem nextJob (h : Tasks w) (next : w.nextJob? = some (j, w')) :
    Tasks w' ∧ ∀ t, j.signals t → w.Expects t j ∧ ∀ k ∈ w'.jobs, k.signals t = false := by
  have jobs := jobs_nextJob next
  have futures := nextJob_futures next
  have focus := congrArg Focus.task? (nextJob_sameRuns next).focus
  refine ⟨h.keep ?_ (fun t p waiting => ?_) focus fun t p waiting _ => ?_, ?_⟩
  · rw [jobs]
    exact List.Subperm.cons_self
  · exact stands_congr (purpose?_congr futures)
  · exact settlement?_congr futures
  · intro t signal
    refine ⟨h.expects j (jobs ▸ List.mem_cons_self) t signal, fun k member => ?_⟩
    have one := h.once t
    rw [jobs, List.countP_cons_of_pos signal] at one
    by_contra again
    have more := List.countP_pos_iff.mpr ⟨k, member, by simpa using again⟩
    omega

/-- Nothing but the kinds of futures that are no tasks is changed, and some of these are settled. -/
theorem settles (h : Tasks w) {kind : Kind} (plain : w.kind? f = some kind) (other : kind ≠ .task)
    (jobs : w'.jobs.Subperm w.jobs) (purposes : ∀ g, g ≠ f → w'.purpose? g = w.purpose? g)
    (kept : w'.kind? f = some kind) (focus : w'.focus.task? = w.focus.task?)
    (settlements : ∀ g, g ≠ f → w'.settlement? g = w.settlement? g) : Tasks w' := by
  have never {w : World} (plain : w.kind? f = some kind) (p : Position)
      (waiting : Option FutureId) : ¬ w.Stands f p waiting := by
    rintro ⟨m, own⟩
    rw [kind?_of_purpose? own] at plain
    exact other (Option.some.inj plain).symm
  refine h.keep jobs (fun t p waiting => ?_) focus fun t p waiting there => ?_
  · by_cases same : t = f
    · subst same
      exact iff_of_false (never kept p waiting) (never plain p waiting)
    · exact stands_congr (purposes t same)
  · refine settlements t ?_
    rintro rfl
    exact never plain p waiting there

theorem settle (h : Tasks w) {role : Role} (plain : w.kind? f = some (.plain role)) :
    Tasks (w.settle f s) :=
  h.settles plain (by simp) jobs_settle (fun _ _ => purpose?_settle)
    (Grown.settle.kinds f _ plain) (congrArg Focus.task? settle_sameRuns.focus)
    fun _ other => settlement?_settle_other other

theorem purpose?_activate (own : w.Stands t p waiting) :
    (w.activate t).purpose? g = if g = t then some (.task .active none false) else w.purpose? g := by
  obtain ⟨m, own⟩ := own
  unfold World.activate
  rw [purpose?_repurpose]
  split
  · rename_i same
    subst same
    rw [own]
    rfl
  · rfl

theorem resumeTask (h : Tasks w) {o : Outcome} (silent : ∀ j ∈ w.jobs, j.signals t = false) :
    Tasks (w.resumeTask t o) := by
  obtain same | ⟨p, waiting, m, f, n, o', pending, own, -, same, goesOn⟩ :=
    resumeTask_cases (w := w) t o <;> rw [same]
  · exact h
  · have stood : w.Stands t p waiting := ⟨m, own⟩
    have purposes (g : FutureId) : (((w.activate t).raisedTo n).focusOn f).purpose? g
        = if g = t then some (.task .active none false) else w.purpose? g := purpose?_activate stood
    have active : (((w.activate t).raisedTo n).focusOn f).Stands t .active none :=
      ⟨false, (purposes t).trans (if_pos rfl)⟩
    have settlements (g : FutureId) : (((w.activate t).raisedTo n).focusOn f).settlement? g
        = w.settlement? g := settlement?_repurpose
    have busy : f.task? = some t := by
      rcases goesOn with ⟨r, -, ⟨v, -, rfl⟩ | ⟨e, -, rfl⟩⟩ | ⟨stack, -, rfl⟩ <;> rfl
    have jobs : (w.activate t).jobs.Subperm w.jobs := jobs_repurpose _
    refine h.shift [] t silent jobs (Nat.zero_le _) (by simp) ?_ ?_ ?_
    · exact fun u p waiting other => stands_congr ((purposes u).trans (if_neg other))
    · intro r waiting there
      have elsewhere := (there.unique active).1
      cases elsewhere
    · intro u same
      obtain rfl : t = u := Option.some.inj (busy.symm.trans same)
      exact ⟨(settlements t).trans pending, active⟩

theorem childEnded (h : Tasks w) (g c : FutureId) : Tasks (w.childEnded g c) := by
  obtain same | ⟨children, ended, requested, s, n, -, own, result⟩ := childEnded_cases (w := w) g c
  · rw [same]
    exact h
  · have kind := kind?_of_purpose? own
    have grown := Grown.childEnded (w := w) g c
    have jobs := jobs_repurpose (w := w) (f := g) (.joint children (ended + 1) requested)
    have counted : ∀ f, f ≠ g →
        (w.repurpose g (.joint children (ended + 1) requested)).purpose? f = w.purpose? f :=
      fun f other => by rw [purpose?_repurpose, if_neg other]
    obtain ⟨same, -⟩ | ⟨s', same, -, -⟩ := result _ rfl
    · refine h.settles kind (by simp [Purpose.kind]) ?_ ?_ (grown.kinds g _ kind) ?_ ?_ <;> rw [same]
      · exact jobs
      · exact counted
      · rfl
      · exact fun f _ => settlement?_repurpose
    · refine h.settles kind (by simp [Purpose.kind]) ?_ ?_ (grown.kinds g _ kind) ?_ ?_ <;> rw [same]
      · exact jobs_settle.trans jobs
      · exact fun f other => purpose?_settle.trans (counted f other)
      · exact congrArg Focus.task? settle_sameRuns.focus
      · exact fun f other => (settlement?_settle_other other).trans settlement?_repurpose

theorem handled (h : Tasks w) (roles : w.Roles)
    (silent : ∀ t, j.signals t → ∀ k ∈ w.jobs, k.signals t = false)
    (freed : ∀ g f, j = .release g f → w.kind? g = some (.plain (.waiter f)))
    (settled : ∀ f how, j = .settle f how → w.kind? f = some (.plain .timed))
    (rest : Handled j w w') : Tasks w' := by
  cases rest with
  | effect e _ => exact h.effect roles e
  | @resumed t => exact h.resumeTask (silent t (by simp [Job.signals]))
  | woken _ =>
    rename_i t f s _
    have delivered := h.effect roles (.deliver s)
    refine delivered.resumeTask ?_
    rw [jobs_congr (deliver_futures s) (deliver_agenda s)]
    exact silent t (by simp [Job.signals])
  | counted => exact h.childEnded _ _
  | freed => exact h.settle (freed _ _ rfl)
  | matured n _ =>
    have raised : Tasks (w.raisedTo n) :=
      h.keep (.refl _) (fun _ _ _ => .rfl) rfl fun _ _ _ _ => rfl
    exact raised.settle (settled _ _ rfl)
  | stopped => exact h.keep (.refl _) (fun _ _ _ => .rfl) rfl fun _ _ _ _ => rfl

theorem beginTurn (h : Tasks w) : Tasks w.beginTurn :=
  h.keep jobs_beginTurn.subperm (fun _ _ _ => .rfl) rfl fun _ _ _ _ => rfl

theorem nextTurn (h : Tasks w) (next : w.nextTurn? = some w') : Tasks w' := by
  have clocked (n : Nat) : Tasks { w with clock := n } :=
    h.keep (.refl _) (fun _ _ _ => .rfl) rfl fun _ _ _ _ => rfl
  obtain ⟨_, -, rfl⟩ := nextTurn_cases next
  exact (clocked _).beginTurn

theorem change (h : Tasks w) (roles : w.Roles) (c : Change w w') : Tasks w' := by
  cases c with
  | worked e past => exact (h.effect roles e).handover past
  | handled idle next rest =>
    rename_i w₁ j
    obtain ⟨tasks, signals⟩ := h.nextJob next
    have jobs := jobs_nextJob next
    have same {f : FutureId} : w₁.kind? f = w.kind? f := by
      rw [kind?, kind?, purpose?_congr (nextJob_futures next)]
    refine tasks.handled (roles.of_nextJob next) (fun t signal => (signals t signal).2) ?_ ?_ rest
    · rintro g f rfl
      exact same.trans (roles.releases g f (jobs ▸ List.mem_cons_self))
    · rintro f how rfl
      exact same.trans (roles.settles f how (jobs ▸ List.mem_cons_self))
  | turned _ next => exact h.nextTurn next

theorem interrupted (h : Tasks w) (i : Interrupted w w') : Tasks w' := by
  induction i with
  | refl _ => exact h
  | settled plain => exact h.settle (kind?_of_purpose? plain)
  | @asked w f children ended requested joint =>
    have kind := kind?_of_purpose? joint
    exact h.settles kind (by simp [Purpose.kind]) (jobs_repurpose _)
      (fun g other => by rw [purpose?_repurpose, if_neg other])
      ((Grown.repurpose (q := .joint children ended true) joint rfl).kinds f _ kind) rfl
      fun g _ => settlement?_repurpose
  | @told w t position waiting mustCancel task =>
    have stands (u : FutureId) (p : Position) (waits : Option FutureId) :
        (w.repurpose t (.task position waiting true)).Stands u p waits ↔ w.Stands u p waits := by
      by_cases same : u = t
      · subst same
        unfold Stands
        rw [purpose?_repurpose, if_pos rfl, task]
        simp
      · exact stands_congr (by rw [purpose?_repurpose, if_neg same])
    exact h.keep (jobs_repurpose _) stands rfl fun u _ _ _ => settlement?_repurpose
  | trans _ _ ih ih' => exact ih' (ih h)

theorem fresh (h : w.Fresh) : Tasks w := by
  have jobs : w.jobs = [] := by simp [jobs, h.agenda, h.futures]
  refine ⟨by simp [jobs], by simp [jobs], ?_, ?_⟩
  · intro t busy
    simp [h.focus, Focus.task?] at busy
  · rintro t r waiting ⟨m, own⟩
    simp [purpose?, future?, h.futures] at own

theorem move {plan : Plan} (h : Tasks w) (roles : w.Roles) (steady : w.Steady)
    (m : Move plan w w') : Tasks w' := by
  cases m with
  | stepped stepped => exact h.change roles (step_change steady stepped)
  | supplied heap => exact h.keep (.refl _) (fun _ _ _ => .rfl) rfl fun _ _ _ _ => rfl
  | called r caller =>
    refine h.adds (.newTask ?_) (newTask_sameRuns r).focus
    cases r <;> simp_all [Routine.isCaller, Routine.begins]
  | observed f =>
    refine ⟨fun t => ?_, fun j member t signal => ?_, fun t busy => ?_, fun t r waiting there => ?_⟩
    · have most := (jobs_onSettled (w := w) (f := f) (j := .stop)).countP_le (Job.signals t)
      rw [List.countP_cons_of_neg (by simp [Job.signals])] at most
      exact Nat.le_trans most (h.once t)
    · rcases List.mem_cons.mp (jobs_onSettled.subset member) with rfl | old
      · simp [Job.signals] at signal
      · exact (h.expects j old t signal).mono fun _ _ _ =>
          (stands_congr purpose?_onSettled).mpr
    · obtain ⟨running, active⟩ := h.focus t (onSettled_sameRuns.focus ▸ busy)
      exact ⟨settlement?_onSettled.trans running, (stands_congr purpose?_onSettled).mpr active⟩
    · exact h.begins t r waiting ((stands_congr purpose?_onSettled).mp there)
  | cleared => exact h.keep (.refl _) (fun _ _ _ => .rfl) rfl fun _ _ _ _ => rfl
  | cancelled f => exact h.interrupted (cancel_interrupted f)
  | turned => exact h.beginTurn
  | opened n main _ _ =>
    exact h.keep (jobs_openLoop n) (fun _ _ _ => .rfl) rfl fun _ _ _ _ => rfl
  | closed _ => exact h.keep jobs_dropLoop (fun _ _ _ => .rfl) rfl fun _ _ _ _ => rfl

end Tasks

end Conductor.World
