import Conductor.Proofs.Bodies

/-!
# The turns of tasks

What a move does with the tasks of a machine: the one at work acts, waits, makes way or ends, another
one goes on from where it stands, one is made for a caller, or all of them stand as before.
-/

namespace Conductor.World

structure Rests (tasks : List (FutureId × Routine)) (w w' : World) : Prop where
  kept : ∀ t p waiting, w.Stands t p waiting → w'.Stands t p waiting
  stands : ∀ t p waiting, w'.Stands t p waiting → w.Stands t p waiting ∨
    ∃ r, p = .unstarted r ∧ waiting = none ∧ (t, r) ∈ tasks
  settled : ∀ t, w'.kind? t = some .task → w'.settlement? t = w.settlement? t

variable {w w' : World} {f g t : FutureId} {s : Settlement} {j : Job} {notes : List Note}
  {tasks : List (FutureId × Routine)} {plan : Plan} {p : Position} {waiting : Option FutureId}

namespace Rests

theorem of_purposes (purposes : ∀ f, w'.purpose? f = w.purpose? f)
    (settled : ∀ t, w'.kind? t = some .task → w'.settlement? t = w.settlement? t) : Rests tasks w w' :=
  ⟨fun t _ _ => (stands_congr (purposes t)).mpr, fun t _ _ there => .inl ((stands_congr (purposes t)).mp there),
    settled⟩

theorem of_futures (futures : w'.futures = w.futures) : Rests tasks w w' :=
  of_purposes (fun _ => purpose?_congr futures) fun _ _ => settlement?_congr futures

theorem trans {w₁ w₂ w₃ : World} {tasks₁ tasks₂ : List (FutureId × Routine)} (h : Rests tasks₁ w₁ w₂)
    (grown : Grown w₁ w₂) (grown' : Grown w₂ w₃) (h' : Rests tasks₂ w₂ w₃) :
    Rests (tasks₂ ++ tasks₁) w₁ w₃ where
  kept t p waiting there := h'.kept t p waiting (h.kept t p waiting there)
  stands t p waiting there := by
    rcases h'.stands t p waiting there with before | ⟨r, own, none, member⟩
    · rcases h.stands t p waiting before with old | ⟨r, own, none, member⟩
      · exact .inl old
      · exact .inr ⟨r, own, none, List.mem_append_right _ member⟩
    · exact .inr ⟨r, own, none, List.mem_append_left _ member⟩
  settled t kind := by
    rw [h'.settled t kind]
    rcases Nat.lt_or_ge t w₂.futures.size with old | new
    · exact h.settled t (grown'.kind_of_lt old kind)
    · rw [settlement?_new new, settlement?_new (Nat.le_trans grown.size_le new)]

theorem then_rest {w₁ w₂ w₃ : World} (h : Rests [] w₁ w₂) (grown : Grown w₁ w₂) (grown' : Grown w₂ w₃)
    (h' : Rests [] w₂ w₃) : Rests [] w₁ w₃ := h.trans grown grown' h'

theorem settle {k : Kind} (own : w.kind? f = some k) (other : k ≠ .task) :
    Rests tasks w (w.settle f s) := by
  refine of_purposes (fun _ => purpose?_settle) fun t kind => settlement?_settle_other ?_
  rintro rfl
  have there : w.kind? t = some .task := by simpa only [kind?, purpose?_settle] using kind
  exact other (Option.some.inj (own.symm.trans there))

theorem newFuture {q : Purpose} (other : q.kind ≠ .task) : Rests tasks w (w.newFuture q).2 := by
  have purposes (t : FutureId) (position : Position) (waiting : Option FutureId) :
      (w.newFuture q).2.Stands t position waiting ↔ w.Stands t position waiting := by
    unfold Stands
    simp only [purpose?_newFuture]
    split
    · rename_i new
      refine iff_of_false ?_ ?_
      · rintro ⟨m, same⟩
        rw [Option.some.inj same] at other
        exact other rfl
      · rintro ⟨m, own⟩
        exact absurd (purpose?_lt own) (new ▸ Nat.lt_irrefl _)
    · exact .rfl
  exact ⟨fun t p waiting => (purposes t p waiting).mpr, fun t p waiting there =>
    .inl ((purposes t p waiting).mp there), fun t _ => settlement?_newFuture q⟩

theorem newPlain (role : Role) : Rests tasks w (w.newFuture (.plain role)).2 :=
  newFuture (by simp [Purpose.kind])

theorem congr {w₁ : World} (h : Rests tasks w w₁) (futures : w'.futures = w₁.futures) :
    Rests tasks w w' where
  kept t p waiting there := (stands_congr (purpose?_congr futures)).mpr (h.kept t p waiting there)
  stands t p waiting there := h.stands t p waiting ((stands_congr (purpose?_congr futures)).mp there)
  settled t kind := (settlement?_congr futures).trans
    (h.settled t ((kind?_congr futures t).symm.trans kind))

theorem congr_left {w₁ : World} (h : Rests tasks w₁ w') (futures : w₁.futures = w.futures) :
    Rests tasks w w' where
  kept t p waiting there := h.kept t p waiting ((stands_congr (purpose?_congr futures)).mpr there)
  stands t p waiting there := (h.stands t p waiting there).imp_left
    (stands_congr (purpose?_congr futures)).mp
  settled t kind := (h.settled t kind).trans (settlement?_congr futures)

theorem newTask (r : Routine) : Rests [(w.futures.size, r)] w (w.newTask r).2 := by
  refine ⟨fun t p waiting there => ?_, fun t p waiting there => ?_, fun t _ => settlement?_newTask r⟩
  · have other : t ≠ w.futures.size := fun same => Nat.lt_irrefl _ (same ▸ there.lt)
    exact (stands_congr (by rw [purpose?_newTask, if_neg other])).mpr there
  · obtain ⟨m, own⟩ := there
    rw [purpose?_newTask] at own
    split at own
    · rename_i new
      cases own
      exact .inr ⟨r, rfl, rfl, by simp [new]⟩
    · exact .inl ⟨m, own⟩

theorem scripted (roles : w.Roles) (done : Scripted w w') : Rests [] w w' := by
  induction done with
  | aside _ futures _ _ => exact of_futures futures
  | @reported w c x f _ known own =>
    exact settle (roles.firsts c f (first?_of_known known own)) (by simp)
  | postponed _ _ _ => exact of_futures rfl
  | queued _ _ => exact of_purposes (fun _ => purpose?_post _) fun _ _ => settlement?_post _
  | made => exact newPlain _
  | timed _ _ => exact (newPlain .timed).congr rfl
  | @settled w w₁ s _ same futures _ =>
    have made := purpose?_newFuture (w := w) (g := w.futures.size) (.plain .timed)
    have own : w₁.kind? w.futures.size = some (.plain .timed) := by
      rw [kind?, purpose?_congr futures, made, if_pos rfl]
      rfl
    have aside : Grown (w.newFuture (.plain .timed)).2 w₁ :=
      .of_futures same (fun f s there => (settlement?_congr futures).trans there)
        (fun f k there => (kind?_congr futures f).trans there)
        fun f n there => by rw [loop?, future?, futures]; exact there
    exact ((newPlain _).congr futures).then_rest ((Grown.newFuture _).trans aside) .settle (settle own (by simp))
  | trans first second ih ih' =>
    exact (ih roles).trans (.scripted first) (.scripted second) (ih' (roles.scripted first).1)

theorem onSettled : Rests tasks w (w.onSettled f j) :=
  of_purposes (fun _ => purpose?_onSettled) fun _ _ => settlement?_onSettled

theorem newJoint (chains : List FutureId) : Rests [] w (w.newJoint chains).2 := by
  have registered (l : List FutureId) (w : World) (g : FutureId) :
      let w' := l.foldl (fun w child => w.onSettled child (.childEnded g child)) w
      Grown w w' ∧ Rests [] w w' := by
    induction l generalizing w with
    | nil => exact ⟨.refl w, of_futures rfl⟩
    | cons c rest ih =>
      obtain ⟨grown, rests⟩ := ih (w.onSettled c (.childEnded g c))
      exact ⟨Grown.onSettled.trans grown, onSettled.trans .onSettled grown rests⟩
  have made : Rests [] w (w.newFuture (.joint chains 0 false)).2 := newFuture (by simp [Purpose.kind])
  have joint : (w.newFuture (.joint chains 0 false)).2.kind? w.futures.size = some (.joint chains) := by
    rw [kind?, purpose?_newFuture, if_pos rfl]
    rfl
  unfold World.newJoint
  dsimp only
  split
  · exact made.then_rest (.newFuture _) .settle (settle joint (by simp))
  · obtain ⟨grown, rests⟩ :=
      registered chains (w.newFuture (.joint chains 0 false)).2 w.futures.size
    exact made.trans (.newFuture _) grown rests

/-- An effect makes the tasks that it tells of, and leaves all others where they stand. -/
theorem effect (roles : w.Roles) (e : Effect notes tasks w w') : Rests tasks w w' := by
  induction e with
  | kept d => exact of_futures d.loop.futures
  | scripted done => exact scripted roles done
  | described d =>
    obtain ⟨r, -, same⟩ | same := newCompletion_cases (d := d) <;> rw [same]
    · exact of_futures rfl
    · exact (newPlain .report).congr rfl
  | recorded _ _ _ => exact (newPlain (.outcome _)).congr rfl
  | tasked r _ => exact newTask r
  | @watched w f run node _ _ _ =>
    exact (onSettled (w := w.note run (.began node.head (some f)))).congr_left rfl
  | joined _ _ => exact newJoint _
  | waited _ => exact (newPlain _).then_rest (.newFuture _) .onSettled onSettled
  | @concluded w run r s v known _ _ =>
    have outcome : w.outcome? run = some r.outcome := by
      rw [outcome?, known]
      rfl
    exact (settle (w := w.setStatus run s) (roles.outcomes run _ outcome) (by simp)).congr_left
      (setStatus_loop run s).futures
  | @failed w c x f known own _ _ =>
    exact settle (roles.firsts c f (first?_of_known known own)) (by simp)
  | trans first second ih ih' =>
    exact (ih roles).trans (.effect first) (.effect second) (ih' (roles.effect first).1)

end Rests

structure Shifts (t : FutureId) (p : Position) (waiting : Option FutureId) (w w' : World) : Prop where
  own : w'.Stands t p waiting
  others : ∀ u q x, u ≠ t → (w'.Stands u q x ↔ w.Stands u q x)
  settled : ∀ u, u ≠ t → w'.settlement? u = w.settlement? u
  purposes : ∀ u, u ≠ t → w'.purpose? u = w.purpose? u

def Tells (w : World) (o : Outcome) (waiting : Option FutureId) : Prop :=
  match waiting with
  | none => o = .ok .nothing
  | some f => ∃ s, w.settlement? f = some s ∧ Delivers o s

inductive Turn (plan : Plan) (w : World) : World → Prop where
  | acted {notes : List Note} {tasks : List (FutureId × Routine)} {w₁ : World} {next : Focus}
      (act : Act plan w w.focus notes tasks w₁ next) (rests : Rests tasks w w₁) :
      Turn plan w (w₁.focusOn next)
  /-- The task at work waits for a future, or makes way for others. -/
  | halted {w' : World} {t : FutureId} {r : Routine} {stack : List Frame} {waiting : Option FutureId}
      (busy : w.focus = .enter t r stack)
      (halts : (∃ f, r = .wait f ∧ waiting = some f) ∨ r = .yield ∧ waiting = none)
      (shifts : Shifts t (.suspended stack) waiting w w') (same : ∀ u, w'.settlement? u = w.settlement? u)
      (idle : w'.focus = .idle)
      (asked : ∀ m, w.purpose? t = some (.task .active none m) →
        w'.purpose? t = some (.task (.suspended stack) waiting m))
      (queued : (∃ f, waiting = some f ∧ (f < w.futures.size → .wake t f ∈ w'.jobs ∨ w'.Frozen f)) ∨
        waiting = none ∧ .resume t ∈ w'.agenda.ready) : Turn plan w w'
  | ended {w' : World} {t : FutureId} {o : Outcome} (busy : w.focus = .leave t o [])
      (shifts : Shifts t .active none w w') (value : ∀ v, w'.settlement? t = some (.value v) → o = .ok v)
      (idle : w'.focus = .idle) (delivers : ∃ s, w'.settlement? t = some s ∧ Delivers o s) : Turn plan w w'
  /-- A task begins, or goes on with what it waited for or with a cancellation. -/
  | resumed {w' : World} {t : FutureId} {p : Position} {waiting : Option FutureId} {o : Outcome}
      (idle : w.focus = .idle) (stood : w.Stands t p waiting) (shifts : Shifts t .active none w w')
      (same : ∀ u, w'.settlement? u = w.settlement? u)
      (heard : ∀ v, o = .ok v → ∀ f, waiting = some f → w.Succeeded f)
      (goesOn : (∃ r, p = .unstarted r ∧ ((∃ v, o = .ok v ∧ w'.focus = .enter t r []) ∨
        ∃ e, o = .error e ∧ w'.focus = .leave t o [])) ∨
        ∃ stack, p = .suspended stack ∧ w'.focus = .leave t o stack)
      (told : w.purpose? t = some (.task p waiting false) → w.Tells o waiting)
      (clear : w'.purpose? t = some (.task .active none false)) : Turn plan w w'
  | begun (r : Routine) (caller : r.isCaller) : Turn plan w (w.newTask r).2
  | rested {w' : World} (rests : Rests [] w w') (focus : w'.focus = w.focus) : Turn plan w w'

theorem Stands.task {kind : Kind} (stands : w.Stands t p waiting) (own : w.kind? t = some kind) :
    kind = .task := by
  obtain ⟨m, there⟩ := stands
  rw [kind?_of_purpose? there] at own
  exact (Option.some.inj own).symm

theorem Shifts.setPosition {before : Option FutureId} (active : w.Stands t .active before) :
    Shifts t p waiting w (w.setPosition t p waiting) where
  own := stands_setPosition active p waiting
  others _ _ _ other := stands_congr (purpose?_setPosition_other p waiting other)
  settled _ _ := settlement?_setPosition p waiting
  purposes _ other := purpose?_setPosition_other p waiting other

theorem Shifts.congr {w₁ : World} (h : Shifts t p waiting w w₁)
    (purposes : ∀ f, w'.purpose? f = w₁.purpose? f)
    (settlements : ∀ f, f ≠ t → w'.settlement? f = w₁.settlement? f) : Shifts t p waiting w w' where
  own := (stands_congr (purposes t)).mpr h.own
  others u q x other := (stands_congr (purposes u)).trans (h.others u q x other)
  settled u other := (settlements u other).trans (h.settled u other)
  purposes u other := (purposes u).trans (h.purposes u other)

theorem Shifts.activate (stood : w.Stands t p waiting) : Shifts t .active none w (w.activate t) := by
  have purposes (g : FutureId) := Tasks.purpose?_activate (g := g) stood
  exact ⟨⟨false, (purposes t).trans (if_pos rfl)⟩,
    fun u _ _ other => stands_congr ((purposes u).trans (if_neg other)),
    fun u _ => settlement?_repurpose, fun u other => (purposes u).trans (if_neg other)⟩

theorem deliver_delivers {s : Settlement} (proper : s.Proper) : Delivers (w.deliver s).1 s := by
  cases s with
  | value v => rfl
  | failed e => rfl
  | cancelled cause =>
    cases cause with
    | none => exact ⟨_, rfl, rfl⟩
    | some e => exact ⟨e, rfl, proper e rfl⟩

theorem Delivers.value {s : Settlement} {o : Outcome} {v : Yield} (delivers : Delivers o s) (ok : o = .ok v) :
    s = .value v := by
  subst ok
  cases s with
  | value x => exact congrArg _ (Except.ok.inj delivers).symm
  | failed e => cases delivers
  | cancelled cause =>
    obtain ⟨e, other, -⟩ := delivers
    cases other

/-- A task that a job is about goes on, or nothing changes about tasks. -/
theorem Turn.resumeTask {w₁ w₂ : World} {o : Outcome} (idle : w.focus = .idle)
    (focus : w₁.focus = w.focus) (futures : w₁.futures = w.futures)
    (heard : ∀ v, o = .ok v → ∀ p waiting, w.Stands t p waiting → ∀ f, waiting = some f → w.Succeeded f)
    (told : ∀ p waiting, w.Stands t p waiting → w.Tells o waiting)
    (same : w₂ = w₁.resumeTask t o) : Turn plan w w₂ := by
  subst same
  obtain same | ⟨p, waiting, m, f, n, o', -, own, kept, same, goesOn⟩ :=
    resumeTask_cases (w := w₁) t o
  · rw [same]
    exact .rested (.of_futures futures) focus
  · have stood : w₁.Stands t p waiting := ⟨m, own⟩
    have stood' := (stands_congr (purpose?_congr futures)).mp stood
    have moved : Shifts t .active none w₁ (((w₁.activate t).raisedTo n).focusOn f) :=
      (Shifts.activate stood).congr (fun _ => rfl) fun _ _ => rfl
    have shifts : Shifts t .active none w (((w₁.activate t).raisedTo n).focusOn f) :=
      ⟨moved.own, fun u q x other => (moved.others u q x other).trans (stands_congr (purpose?_congr futures)),
        fun u other => (moved.settled u other).trans (settlement?_congr futures),
        fun u other => (moved.purposes u other).trans (purpose?_congr futures)⟩
    rw [same]
    refine .resumed (o := o') idle stood' shifts (fun u => ?_) (fun v ok g waits => ?_) ?_ (fun clear => ?_)
      ((Tasks.purpose?_activate stood).trans (if_pos rfl))
    · exact (settlement?_repurpose (w := w₁)).trans (settlement?_congr futures)
    · rcases kept with rfl | ⟨e, other, -⟩
      · exact heard v ok p waiting stood' g waits
      · rw [ok] at other
        cases other
    · rcases goesOn with ⟨r, rfl, ⟨v, ok, rfl⟩ | ⟨e, error, rfl⟩⟩ | ⟨stack, rfl, rfl⟩
      · exact .inl ⟨r, rfl, .inl ⟨v, ok, rfl⟩⟩
      · exact .inl ⟨r, rfl, .inr ⟨e, error, by rw [error]; rfl⟩⟩
      · exact .inr ⟨stack, rfl, rfl⟩
    · rcases kept with rfl | ⟨e, -, -, asked⟩
      · exact told p waiting stood'
      · have own' := own.symm.trans ((purpose?_congr futures).trans clear)
        simp [asked] at own'

/-- A future is given another purpose, with which it stands where it stood. -/
theorem Rests.repurpose {q q' : Purpose} (own : w.purpose? f = some q)
    (same : ∀ p waiting, (∃ m, q' = .task p waiting m) ↔ ∃ m, q = .task p waiting m) :
    Rests tasks w (w.repurpose f q') := by
  have stands (t : FutureId) (p : Position) (waiting : Option FutureId) :
      (w.repurpose f q').Stands t p waiting ↔ w.Stands t p waiting := by
    by_cases mine : t = f
    · subst mine
      unfold Stands
      rw [purpose?_repurpose, if_pos rfl, own]
      simpa using same p waiting
    · exact stands_congr (by rw [purpose?_repurpose, if_neg mine])
  exact ⟨fun t p waiting => (stands t p waiting).mpr, fun t p waiting there => .inl ((stands t p waiting).mp there),
    fun _ _ => settlement?_repurpose⟩

theorem Rests.childEnded (g c : FutureId) : Rests [] w (w.childEnded g c) := by
  obtain same | ⟨children, ended, requested, s, n, -, own, result⟩ := childEnded_cases (w := w) g c
  · rw [same]
    exact of_futures rfl
  · have counted := Grown.repurpose (q := .joint children (ended + 1) requested) own rfl
    have joint := counted.kinds g _ (kind?_of_purpose? own)
    have kept : Rests [] w (w.repurpose g (.joint children (ended + 1) requested)) :=
      repurpose own (by simp)
    obtain ⟨same, -⟩ | ⟨s', same, -, -⟩ := result _ rfl <;> rw [same]
    · exact kept
    · have raised : Rests [] w ((w.repurpose g (.joint children (ended + 1) requested)).raisedTo n) :=
        kept.congr rfl
      exact raised.then_rest (counted.trans (.raisedTo n)) .settle (settle joint (by simp [Purpose.kind]))

theorem Rests.interrupted (i : Interrupted w w') : Rests [] w w' := by
  induction i with
  | refl _ => exact of_futures rfl
  | settled plain => exact settle (kind?_of_purpose? plain) (by simp [Purpose.kind])
  | asked joint => exact repurpose joint (by simp)
  | told task => exact repurpose task (by simp)
  | trans first second ih ih' => exact ih.trans (.interrupted first) (.interrupted second) ih'

theorem focus_interrupted (i : Interrupted w w') : w'.focus = w.focus := by
  induction i with
  | refl _ => rfl
  | settled _ => exact settle_sameRuns.focus
  | asked _ => rfl
  | told _ => rfl
  | trans _ _ ih ih' => exact ih'.trans ih

theorem focus_childEnded (g c : FutureId) : (w.childEnded g c).focus = w.focus := by
  obtain same | ⟨children, ended, requested, s, n, -, -, result⟩ := childEnded_cases (w := w) g c
  · rw [same]
  · obtain ⟨same, -⟩ | ⟨s', same, -, -⟩ := result _ rfl <;> rw [same]
    · rfl
    · exact settle_sameRuns.focus

theorem Turn.suspended {stack : List Frame} (tasks : w.Tasks) (busy : w.focus = .enter t (.wait f) stack) :
    Turn plan w (w.suspend t f stack) := by
  have active := (tasks.focus t (by rw [busy]; rfl)).2
  refine .halted busy (.inl ⟨f, rfl, rfl⟩) ?_ (fun u => ?_) rfl (fun m own => ?_) (.inl ⟨f, rfl, fun known => ?_⟩)
  · exact (Shifts.setPosition active).congr (fun _ => purpose?_onSettled) fun _ _ => settlement?_onSettled
  · exact (settlement?_onSettled (w := w.setPosition t _ _)).trans (settlement?_setPosition _ _)
  · exact (purpose?_onSettled (w := w.setPosition t _ _)).trans (purpose?_setPosition_self own)
  · exact onSettled_waits (w := w.setPosition t (.suspended stack) (some f))
      ((Grown.setPosition (w := w) _ _).known known)

theorem Turn.yielded {stack : List Frame} (tasks : w.Tasks) (busy : w.focus = .enter t .yield stack) :
    Turn plan w (((w.setPosition t (.suspended stack) none).post w.agenda.loop (.resume t)).focusOn
      .idle) := by
  have active := (tasks.focus t (by rw [busy]; rfl)).2
  refine .halted busy (.inr ⟨rfl, rfl⟩) ?_ (fun u => ?_) rfl (fun m own => ?_) (.inr ⟨rfl, ?_⟩)
  · exact (Shifts.setPosition active).congr (fun _ => purpose?_post _) fun _ _ => settlement?_post _
  · exact (settlement?_post (w := w.setPosition t _ _) _).trans (settlement?_setPosition _ _)
  · exact (purpose?_post (w := w.setPosition t _ _) _).trans (purpose?_setPosition_self own)
  · have same : (w.setPosition t (.suspended stack) none).agenda.loop = w.agenda.loop :=
      (setPosition_sameRuns _ _).loop
    simp [focusOn, World.post, same]

theorem Turn.ends {o : Outcome} (tasks : w.Tasks) (busy : w.focus = .leave t o []) :
    Turn plan w (w.endTask t o) := by
  obtain ⟨running, active⟩ := tasks.focus t (by rw [busy]; rfl)
  obtain ⟨s, same, -, delivers⟩ := endTask_cases (w := w) t o
  have settled : (((w.setPosition t .active none).settle t s).focusOn .idle).settlement? t = some s := by
    obtain ⟨x, found⟩ := future?_isSome ((Grown.setPosition (f := t) (w := w) .active none).known active.lt)
    have pending := (settlement?_of_future? found).symm.trans ((settlement?_setPosition _ _).trans running)
    refine (settlement?_settle_self (s := s) found).trans ?_
    rw [pending]
    rfl
  rw [same]
  refine .ended busy ?_ (fun v there => ?_) rfl ⟨s, settled, delivers⟩
  · exact (Shifts.setPosition active).congr (fun _ => purpose?_settle) fun _ => settlement?_settle_other
  · obtain rfl := Option.some.inj (settled.symm.trans there)
    exact delivers

theorem Turn.handled {w₁ : World} (sound : w.Sound) (idle : w.focus = .idle)
    (next : w.nextJob? = some (j, w₁)) : Turn plan w (w₁.runJob plan j) := by
  have futures := nextJob_futures next
  have focus : w₁.focus = w.focus := (nextJob_sameRuns next).focus
  have there := mem_jobs_of_next next
  have roles := sound.roles.of_nextJob next
  have same := kind?_congr futures
  have rest : Handled j w₁ (w₁.runJob plan j) := sound.steady.handled next
  generalize w₁.runJob plan j = w' at rest ⊢
  cases rest with
  | effect e _ => exact .rested ((Rests.effect roles e).congr_left futures) (e.focus.trans focus)
  | @resumed t =>
    have nothing {p : Position} {waiting : Option FutureId} (stood : w.Stands t p waiting) : waiting = none := by
      obtain ⟨r, here⟩ | ⟨stack, here⟩ := sound.tasks.expects _ there t (by simp [Job.signals]) <;>
        exact (stood.unique here).2
    refine .resumeTask (t := t) (o := .ok .nothing) idle focus futures
      (fun v _ p waiting stood f waits => ?_) (fun p waiting stood => ?_) rfl
    · cases (nothing stood).symm.trans waits
    · rw [nothing stood]
      rfl
  | @woken t f _ s settled =>
    have before : w.settlement? f = some s := (settlement?_congr futures).symm.trans settled
    have delivers := deliver_delivers (w := w₁) (sound.proper.settlements f s before)
    have own {p : Position} {waiting : Option FutureId} (stood : w.Stands t p waiting) : waiting = some f := by
      obtain ⟨stack, here⟩ := sound.tasks.expects _ there t (by simp [Job.signals])
      exact (stood.unique here).2
    refine .resumeTask (t := t) (o := (w₁.deliver s).1) idle
      ((Effect.deliver s).focus.trans focus) ((deliver_futures s).trans futures)
      (fun v ok p waiting stood g waits => ?_) (fun p waiting stood => ?_) rfl
    · obtain rfl := Option.some.inj ((own stood).symm.trans waits)
      exact ⟨v, delivers.value ok ▸ before⟩
    · rw [own stood]
      exact ⟨s, before, delivers⟩
  | counted =>
    exact .rested ((Rests.childEnded _ _).congr_left futures) ((focus_childEnded _ _).trans focus)
  | @freed g f =>
    have waiter : w₁.kind? g = some (.plain (.waiter f)) :=
      (same g).trans (sound.roles.releases g f there)
    exact .rested ((Rests.settle waiter (by simp)).congr_left futures) (settle_sameRuns.focus.trans focus)
  | @matured f how _ s n _ =>
    have timed : (w₁.raisedTo n).kind? f = some (.plain .timed) :=
      (same f).trans (sound.roles.settles f how there)
    exact .rested ((Rests.settle timed (by simp)).congr_left futures) (settle_sameRuns.focus.trans focus)
  | stopped => exact .rested (.of_futures futures) focus

theorem Move.turn (sound : w.Sound) (m : Move plan w w') : Turn plan w w' := by
  cases m with
  | stepped stepped =>
    cases step_stepped sound.steady stepped with
    | acted act => exact .acted act (.effect sound.roles act.effect)
    | suspended busy _ => exact .suspended sound.tasks busy
    | yielded busy => exact .yielded sound.tasks busy
    | ended busy => exact .ends sound.tasks busy
    | handled idle next => exact .handled sound idle next
    | turned idle next =>
      obtain ⟨_, -, rfl⟩ := nextTurn_cases next
      exact .rested (.of_futures rfl) rfl
  | supplied _ => exact .rested (.of_futures rfl) rfl
  | called r caller => exact .begun r caller
  | observed f => exact .rested .onSettled onSettled_sameRuns.focus
  | cleared => exact .rested (.of_futures rfl) rfl
  | cancelled f =>
    have i := cancel_interrupted (w := w) f
    exact .rested (.interrupted i) (focus_interrupted i)
  | turned => exact .rested (.of_futures rfl) rfl
  | opened _ _ _ _ => exact .rested (.of_futures rfl) rfl
  | closed _ => exact .rested (.of_futures rfl) rfl

/-- A task has come to a routine by an act, was at it before, or begins with it. -/
theorem Move.entered {r : Routine} (sound : w.Sound) (m : Move plan w w') (here : w'.focus = .enter t r stack) :
    (∃ notes tasks w₁, Act plan w w.focus notes tasks w₁ (.enter t r stack) ∧ w' = w₁.focusOn (.enter t r stack)) ∨
      w.focus = .enter t r stack ∨ ∃ waiting, stack = [] ∧ w.Stands t (.unstarted r) waiting := by
  cases m.turn sound with
  | @acted notes tasks w₁ next act _ =>
    obtain rfl : next = .enter t r stack := here
    exact .inl ⟨notes, tasks, w₁, act, rfl⟩
  | halted _ _ _ _ idle => cases idle.symm.trans here
  | ended _ _ _ idle => cases idle.symm.trans here
  | resumed _ stood _ _ _ goesOn _ _ =>
    obtain ⟨r', rfl, ⟨_, -, focus⟩ | ⟨_, -, focus⟩⟩ | ⟨_, -, focus⟩ := goesOn
    · obtain ⟨rfl, rfl, rfl⟩ := Focus.enter.inj (focus.symm.trans here)
      exact .inr (.inr ⟨_, rfl, stood⟩)
    · cases focus.symm.trans here
    · cases focus.symm.trans here
  | begun r' _ => exact .inr (.inl ((newTask_sameRuns r').focus.symm.trans here))
  | rested _ focus => exact .inr (.inl (focus.symm.trans here))

/-- How a task has come to stand as it does: it has stood so before, it has been made, it has been at work and
waits now or makes way for others, or it is at work or has ended. -/
inductive Came (plan : Plan) (w w' : World) (t : FutureId) : Position → Option FutureId → Prop where
  | stood {p : Position} {waiting : Option FutureId} (there : w.Stands t p waiting) : Came plan w w' t p waiting
  | made {r : Routine} (new : w.futures.size ≤ t) (maker : (∃ notes tasks w₁ next,
      Act plan w w.focus notes tasks w₁ next ∧ w' = w₁.focusOn next ∧ (t, r) ∈ tasks) ∨ r.isCaller) :
      Came plan w w' t (.unstarted r) none
  | halted {r : Routine} {stack : List Frame} {waiting : Option FutureId} (busy : w.focus = .enter t r stack)
      (halts : (∃ f, r = .wait f ∧ waiting = some f) ∨ r = .yield ∧ waiting = none) (idle : w'.focus = .idle)
      (queued : (∃ f, waiting = some f ∧ (f < w.futures.size → .wake t f ∈ w'.jobs ∨ w'.Frozen f)) ∨
        waiting = none ∧ .resume t ∈ w'.agenda.ready) : Came plan w w' t (.suspended stack) waiting
  | active : Came plan w w' t .active none

theorem Move.came (sound : w.Sound) (m : Move plan w w') (stood : w'.Stands t p waiting) :
    Came plan w w' t p waiting := by
  have rested {tasks : List (FutureId × Routine)} {w'' : World} (rests : Rests tasks w w'')
      (there : w''.Stands t p waiting) (made : ∀ r, (t, r) ∈ tasks → Came plan w w' t (.unstarted r) none) :
      Came plan w w' t p waiting := by
    rcases rests.stands t p waiting there with old | ⟨r, rfl, rfl, member⟩
    · exact .stood old
    · exact made r member
  have shifted {u : FutureId} {q : Position} {x : Option FutureId} (shifts : Shifts u q x w w')
      (own : Came plan w w' u q x) : Came plan w w' t p waiting := by
    by_cases mine : t = u
    · subst mine
      obtain ⟨rfl, rfl⟩ := stood.unique shifts.own
      exact own
    · exact .stood ((shifts.others t _ _ mine).mp stood)
  cases m.turn sound with
  | acted act rests =>
    exact rested rests stood fun r made => .made (act.effect.made _ made).1 (.inl ⟨_, _, _, _, act, rfl, made⟩)
  | halted busy halts shifts _ idle _ queued => exact shifted shifts (.halted busy halts idle queued)
  | ended _ shifts => exact shifted shifts .active
  | resumed _ _ shifts => exact shifted shifts .active
  | begun r caller =>
    refine rested (.newTask r) stood fun r' made => ?_
    obtain ⟨rfl, rfl⟩ := Prod.mk.inj (List.mem_singleton.mp made)
    exact .made (Nat.le_refl _) (.inr caller)
  | rested rests _ => exact rested rests stood fun r none => nomatch none

/-- A task that stands somewhere, and is not at work, does not stand elsewhere when the task at work acts. -/
theorem Tasks.elsewhere {u : FutureId} {p : Position} {waiting : Option FutureId} (tasks : w.Tasks)
    (stood : w.Stands t p waiting) (rest : p ≠ .active) (busy : w.focus.task? = some u) : t ≠ u := by
  rintro rfl
  exact rest (stood.unique (tasks.focus t busy).2).1

/-- A task that is not at work stands as it did, or it is its turn to begin or to go on. -/
theorem Move.rests (sound : w.Sound) (m : Move plan w w') (stood : w.Stands t p waiting) (rest : p ≠ .active) :
    w'.Stands t p waiting ∨ ∃ o,
      ((∃ r, p = .unstarted r ∧ ((∃ v, o = .ok v ∧ w'.focus = .enter t r []) ∨
        ∃ e, o = .error e ∧ w'.focus = .leave t o [])) ∨
        ∃ stack, p = .suspended stack ∧ w'.focus = .leave t o stack) ∧
      (w.purpose? t = some (.task p waiting false) → w.Tells o waiting) := by
  have elsewhere {u : FutureId} {q : Position} {x : Option FutureId} (shifts : Shifts u q x w w')
      (busy : w.focus.task? = some u) : w'.Stands t p waiting :=
    (shifts.others t _ _ (sound.tasks.elsewhere stood rest busy)).mpr stood
  cases m.turn sound with
  | acted act rests => exact .inl (rests.kept t _ _ stood)
  | halted busy _ shifts => exact .inl (elsewhere shifts (congrArg Focus.task? busy))
  | ended busy shifts => exact .inl (elsewhere shifts (congrArg Focus.task? busy))
  | @resumed _ u _ _ o _ stood' shifts _ _ goesOn told _ =>
    by_cases mine : t = u
    · subst mine
      obtain ⟨rfl, rfl⟩ := stood.unique stood'
      exact .inr ⟨o, goesOn, told⟩
    · exact .inl ((shifts.others t _ _ mine).mpr stood)
  | begun r _ => exact .inl ((Rests.newTask r).kept t _ _ stood)
  | rested rests _ => exact .inl (rests.kept t _ _ stood)

end Conductor.World
