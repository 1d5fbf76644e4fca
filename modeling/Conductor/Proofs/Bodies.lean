import Conductor.Proofs.Happenings
import Conductor.Proofs.Notices

/-!
# What a run hears of bodies

A run that has begun the body of a member is told of its end, unless the loop of the body is closed.
Whoever waits for the body through a future of its own is freed only after that.
-/

namespace Conductor.World

variable {w w' : World} {f g b : FutureId} {s : Settlement} {j : Job} {notes : List Note}
  {tasks : List (FutureId × Routine)} {plan : Plan} {run : RunId} {h : Head} {c : CompletionId}

/-! ### Notices that are still to come -/

section

variable {node : Node} {explicit : Bool}

theorem notice_of_cons (member : .bodyEnded run node c explicit b ∈ w'.jobs) (jobs : w'.jobs.Subperm (j :: w.jobs))
    (other : ∀ b, j.tells b = false) : .bodyEnded run node c explicit b ∈ w.jobs := by
  rcases List.mem_cons.mp (jobs.subset member) with rfl | old
  · have never := other b
    simp [Job.tells] at never
  · exact old

theorem Handover.notice (past : Handover w w') (member : .bodyEnded run node c explicit b ∈ w'.jobs) :
    .bodyEnded run node c explicit b ∈ w.jobs := by
  cases past with
  | focused f _ _ _ => exact member
  | @suspended t f stack _ _ =>
    have jobs : (w.suspend t f stack).jobs.Subperm (.wake t f :: w.jobs) :=
      jobs_onSettled.trans ((List.subperm_append_left [_]).mpr (jobs_setPosition _ _))
    exact notice_of_cons member jobs fun _ => rfl
  | @yielded t stack _ =>
    have posted := jobs_post (w := w.setPosition t (.suspended stack) none) (j := .resume t)
      w.agenda.loop
    exact notice_of_cons member (posted.trans ((List.subperm_append_left [_]).mpr (jobs_setPosition _ _)))
      fun _ => rfl
  | @ended t o _ =>
    have jobs : (w.endTask t o).jobs.Subperm w.jobs := jobs_settle.trans (jobs_setPosition _ _)
    exact jobs.subset member

theorem BodyEnds.began {other : RunId} (ends : BodyEnds other h c b w notes w') :
    ∀ x body, (run, .began x body) ∉ notes := by
  cases ends with
  | quiet _ _ => simp
  | doomed _ _ _ => simp
  | unheard _ _ => simp
  | rejecting _ only _ _ =>
    intro x body member
    rcases List.mem_append.mp member with rejection | failure
    · obtain ⟨ms, e, same⟩ := only _ rejection
      cases same
    · simp at failure

theorem Told.began (told : Told j notes w w') : ∀ h b, (run, .began h b) ∉ notes := by
  cases told with
  | played _ => simp
  | body ends => exact ends.began

theorem Handled.notice (rest : Handled j w w') (member : .bodyEnded run node c explicit b ∈ w'.jobs) :
    .bodyEnded run node c explicit b ∈ w.jobs := by
  cases rest with
  | effect e told => exact (e.notice member).resolve_right (told.began _ _)
  | resumed => exact (jobs_resumeTask _ _).subset member
  | @woken t f _ s =>
    rw [← jobs_deliver (w := w) s]
    exact (jobs_resumeTask _ _).subset member
  | counted => exact (jobs_childEnded _ _).subset member
  | freed => exact jobs_settle.subset member
  | @matured f _ _ s n => exact (jobs_settle (w := w.raisedTo n)).subset member
  | stopped => exact member

theorem jobs_nextTurn (next : w.nextTurn? = some w') : w'.jobs.Perm w.jobs := by
  obtain ⟨_, -, rfl⟩ := nextTurn_cases next
  exact jobs_beginTurn (w := { w with clock := _ })

theorem jobs_interrupted (i : Interrupted w w') : w'.jobs.Subperm w.jobs := by
  induction i with
  | refl _ => exact .refl _
  | settled _ => exact jobs_settle
  | asked _ => exact jobs_repurpose _
  | told _ => exact jobs_repurpose _
  | trans _ _ ih ih' => exact ih'.trans ih

/-- A move adds a notice of the end of a body only by beginning the body. -/
theorem Move.notice (steady : w.Steady) (m : Move plan w w') (member : .bodyEnded run node c explicit b ∈ w'.jobs) :
    .bodyEnded run node c explicit b ∈ w.jobs ∨ ∃ notes tasks w₁ next, Act plan w w.focus notes tasks w₁ next ∧
      w' = w₁.focusOn next ∧ (run, .began node.head (some b)) ∈ notes := by
  cases m with
  | stepped stepped =>
    cases step_stepped steady stepped with
    | acted act => exact (act.effect.notice member).imp_right fun began => ⟨_, _, _, _, act, rfl, began⟩
    | suspended busy pending => exact .inl (Handover.notice (.suspended busy pending) member)
    | yielded busy => exact .inl (Handover.notice (.yielded busy) member)
    | ended busy => exact .inl (Handover.notice (.ended busy) member)
    | @handled j w₁ idle next =>
      rw [jobs_nextJob next]
      exact .inl (List.mem_cons_of_mem _ (Handled.notice (steady.handled next) member))
    | turned idle next => exact .inl ((jobs_nextTurn next).subset member)
  | supplied _ => exact .inl member
  | called r _ => exact .inl (notice_of_cons member (jobs_newTask r) fun _ => rfl)
  | observed f => exact .inl (notice_of_cons member jobs_onSettled fun _ => rfl)
  | cleared => exact .inl member
  | cancelled f => exact .inl ((jobs_interrupted (cancel_interrupted f)).subset member)
  | turned => exact .inl (jobs_beginTurn.subset member)
  | opened n _ _ _ => exact .inl ((jobs_openLoop n).subset member)
  | closed _ => exact .inl (jobs_dropLoop.subset member)

end

/-- A move makes a run wait for the end of a body only by beginning it. -/
theorem Move.awaits (steady : w.Steady) (m : Move plan w w') (waits : w'.Awaits run b) :
    w.Awaits run b ∨ ∃ notes tasks w₁ next h, Act plan w w.focus notes tasks w₁ next ∧
      w' = w₁.focusOn next ∧ (run, .began h (some b)) ∈ notes := by
  obtain ⟨node, c, explicit, member⟩ := waits
  exact (m.notice steady member).imp (fun old => ⟨node, c, explicit, old⟩) fun ⟨_, _, _, _, act, same, began⟩ =>
    ⟨_, _, _, _, _, act, same, began⟩

theorem Rejections.of_began {only : List Note} {other : RunId} {body : Option FutureId}
    (rejections : Rejections other only) : (run, .began h body) ∉ only := by
  intro member
  obtain ⟨ms, e, same⟩ := rejections _ member
  cases same

section

variable {x : Head} {e : Raised} {pre : List Note} {t : FutureId} {stack : List Frame} {other : RunId}
  {call : Call} {body body' : Option FutureId} {next : Focus}

theorem Lost.of_began (lost : Lost other x e pre t stack w notes w' next)
    (member : (run, .began h body) ∈ notes) : (run, .began h body) ∈ pre := by
  cases lost with
  | mk _ rest =>
    rcases List.mem_append.mp member with rejection | failure
    · exact absurd rejection (Rejections.of_began rest.only)
    · exact (List.mem_cons.mp failure).resolve_left (by simp)

theorem Finished.of_began (finished : Finished plan other call body' pre t stack w notes w' next)
    (member : (run, .began h body) ∈ notes) : (run, .began h body) ∈ pre := by
  cases finished with
  | lost lost => exact lost.of_began member
  | moot _ _ => exact member
  | followed _ _ _ _ => exact (List.mem_cons.mp member).resolve_left (by simp)

theorem Lost.subset (lost : Lost other x e pre t stack w notes w' next) : pre ⊆ notes := by
  cases lost with
  | mk _ _ => exact List.Subset.trans (List.subset_cons_self _ _) (List.subset_append_right _ _)

theorem Finished.subset (finished : Finished plan other call body' pre t stack w notes w' next) :
    pre ⊆ notes := by
  cases finished with
  | lost lost => exact lost.subset
  | moot _ _ => exact List.Subset.refl _
  | followed _ _ _ _ => exact List.subset_cons_self _ _

end

/-! ### What moves note -/

/-- What a move notes: what an act does, or what becomes of a notice. -/
inductive Noting (plan : Plan) (w : World) : List Note → World → Prop where
  | acted {notes : List Note} {tasks : List (FutureId × Routine)} {w₁ : World} {next : Focus}
      (act : Act plan w w.focus notes tasks w₁ next) : Noting plan w notes (w₁.focusOn next)
  | told {run : RunId} {node : Node} {c : CompletionId} {explicit : Bool} {b : FutureId}
      {notes : List Note} {w₁ w' : World} (idle : w.focus = .idle)
      (next : w.nextJob? = some (.bodyEnded run node c explicit b, w₁))
      (ends : BodyEnds run node.head c b w₁ notes w') (done : w' = w₁.runJob plan (.bodyEnded run node c explicit b)) :
      Noting plan w notes w'
  | quiet {w' : World} (quiet : Quiet w w') : Noting plan w [] w'

theorem Noting.noted (noting : Noting plan w notes w') : w'.notes = notes ++ w.notes := by
  cases noting with
  | acted act => exact act.effect.noted
  | told _ next ends _ => rw [ends.effect.noted, notes_congr (nextJob_sameRuns next).journal]
  | quiet quiet => exact notes_congr quiet.journal

/-- Whatever a move notes happens where the task at work was, unless the end of a body is told of. -/
theorem Noting.happens {x : Happening} (noting : Noting plan w notes w') (member : (run, x) ∈ notes) :
    Happens plan w run notes w.focus w'.focus x := by
  cases noting with
  | acted act => exact act.happens member
  | quiet _ => cases member
  | told _ _ ends _ =>
    cases ends with
    | quiet _ _ => cases member
    | doomed _ _ _ => cases member
    | unheard _ _ =>
      obtain ⟨rfl, rfl⟩ := Prod.mk.inj (List.mem_singleton.mp member)
      exact .unheard _ _ _
    | rejecting _ only _ _ =>
      rcases List.mem_append.mp member with rejection | failure
      · exact Rejections.happens only rejection
      · obtain ⟨rfl, rfl⟩ := Prod.mk.inj (List.mem_singleton.mp failure)
        exact .failed _ _

theorem Move.noting (sound : w.Sound) (m : Move plan w w') : ∃ notes, Noting plan w notes w' := by
  have quiet (same : Quiet w w') : ∃ notes, Noting plan w notes w' := ⟨[], .quiet same⟩
  cases m with
  | stepped stepped =>
    cases step_stepped sound.steady stepped with
    | acted act => exact ⟨_, .acted act⟩
    | suspended busy pending => exact quiet (.handover (.suspended busy pending))
    | yielded busy => exact quiet (.handover (.yielded busy))
    | ended busy => exact quiet (.handover (.ended busy))
    | @handled j w₁ idle next =>
      have taken := Quiet.of_sameRuns (nextJob_sameRuns next)
      have rest : Handled j w₁ (w₁.runJob plan j) := sound.steady.handled next
      generalize ran : w₁.runJob plan j = w' at rest quiet
      cases rest with
      | effect _ told =>
        cases told with
        | played done => exact quiet (taken.trans (.of_sameRuns done.sameRuns))
        | body ends => exact ⟨_, .told idle next ends ran.symm⟩
      | resumed => exact quiet (taken.trans (.resumeTask _ _))
      | woken _ => exact quiet ((taken.trans (.deliver _)).trans (.resumeTask _ _))
      | counted => exact quiet (taken.trans (.childEnded _ _))
      | freed => exact quiet (taken.trans (.of_sameRuns settle_sameRuns))
      | @matured _ _ _ _ n _ =>
        have raised : Quiet w (w₁.raisedTo n) := ⟨taken.records, taken.journal, taken.clock⟩
        exact quiet (raised.trans (.of_sameRuns settle_sameRuns))
      | stopped => exact quiet ⟨taken.records, taken.journal, taken.clock⟩
    | turned idle next => exact quiet (.nextTurn next)
  | supplied _ => exact quiet ⟨rfl, rfl, Nat.le_refl _⟩
  | called r _ => exact quiet (.of_sameRuns (newTask_sameRuns r))
  | observed f => exact quiet (.of_sameRuns onSettled_sameRuns)
  | cleared => exact quiet ⟨rfl, rfl, Nat.le_refl _⟩
  | cancelled f => exact quiet (.interrupted (cancel_interrupted f))
  | turned => exact quiet ⟨rfl, rfl, Nat.le_refl _⟩
  | opened _ _ _ _ => exact quiet ⟨rfl, rfl, Nat.le_refl _⟩
  | closed _ => exact quiet ⟨rfl, rfl, Nat.le_refl _⟩

/-- What holds of whatever a move notes, and goes on to hold, holds of all notes. -/
theorem Reachable.forall_notes {P : World → Note → Prop} (reached : Reachable plan w)
    (keep : ∀ {w w' : World}, Reachable plan w → Move plan w w' → ∀ x, P w x → P w' x)
    (new : ∀ {w w' : World} {notes : List Note}, Reachable plan w → Move plan w w' →
      Noting plan w notes w' → ∀ x ∈ notes, P w' x) : ∀ x ∈ w.notes, P w x := by
  induction reached with
  | fresh fresh => simp [notes, fresh.journal]
  | move before m ih =>
    obtain ⟨notes, noting⟩ := m.noting before.sound
    intro x member
    rcases List.mem_append.mp (noting.noted ▸ member) with here | old
    · exact new before m noting x here
    · exact keep before m x (ih x old)

/-! ### Waiting through a future of one's own -/

/-- Whether nobody is freed who waits for a future through another one. -/
def Detains (w w' : World) : Prop :=
  ∀ g b, w'.kind? g = some (.plain (.waiter b)) → w'.settlement? g = w.settlement? g

theorem kind?_lt {k : Kind} (own : w.kind? f = some k) : f < w.futures.size := by
  obtain ⟨p, there, -⟩ := Option.map_eq_some_iff.mp own
  exact purpose?_lt there

theorem kind?_congr (futures : w'.futures = w.futures) (f : FutureId) : w'.kind? f = w.kind? f := by
  rw [kind?, kind?, purpose?_congr futures]

theorem settlement?_new (new : w.futures.size ≤ f) : w.settlement? f = none := by
  simp [settlement?, future?, new]

theorem settlement?_lt (settled : w.settlement? f = some s) : f < w.futures.size := by
  by_contra new
  rw [settlement?_new (Nat.le_of_not_lt new)] at settled
  cases settled

theorem Grown.kind_of_lt {k : Kind} (grown : Grown w w') (old : f < w.futures.size)
    (own : w'.kind? f = some k) : w.kind? f = some k := by
  obtain ⟨p, there⟩ := purpose?_isSome old
  have same := (grown.kinds f _ (kind?_of_purpose? there)).symm.trans own
  rw [kind?_of_purpose? there]
  exact same

namespace Detains

theorem of_settlements (same : ∀ f, w'.settlement? f = w.settlement? f) : Detains w w' :=
  fun g _ _ => same g

theorem trans {w₁ w₂ w₃ : World} (h : Detains w₁ w₂) (grown : Grown w₁ w₂) (grown' : Grown w₂ w₃)
    (h' : Detains w₂ w₃) : Detains w₁ w₃ := by
  intro g b kind
  rw [h' g b kind]
  rcases Nat.lt_or_ge g w₂.futures.size with old | new
  · exact h g b (grown'.kind_of_lt old kind)
  · rw [settlement?_new new, settlement?_new (Nat.le_trans grown.size_le new)]

theorem settle (other : ∀ b, w.kind? f ≠ some (.plain (.waiter b))) : Detains w (w.settle f s) := by
  intro g b kind
  refine settlement?_settle_other ?_
  rintro rfl
  refine other b ?_
  simpa only [kind?, purpose?_settle] using kind

theorem settle_kind {k : Kind} (own : w.kind? f = some k) (other : ∀ b, k ≠ .plain (.waiter b)) :
    Detains w (w.settle f s) :=
  settle fun b waiter => other b (Option.some.inj (own.symm.trans waiter))

theorem newFuture (p : Purpose) : Detains w (w.newFuture p).2 :=
  of_settlements fun _ => settlement?_newFuture p

theorem onSettled : Detains w (w.onSettled f j) := of_settlements fun _ => settlement?_onSettled

theorem scripted (roles : w.Roles) (done : Scripted w w') : Detains w w' := by
  induction done with
  | aside _ futures _ _ => exact of_settlements fun _ => settlement?_congr futures
  | @reported w c x f _ known own =>
    exact settle_kind (roles.firsts c f (first?_of_known known own)) (by simp)
  | postponed _ _ _ => exact of_settlements fun _ => rfl
  | queued _ _ => exact of_settlements fun _ => settlement?_post _
  | made => exact newFuture _
  | timed _ _ => exact of_settlements fun _ => settlement?_newFuture (.plain .timed)
  | @settled w w₁ s _ same futures _ =>
    have made := purpose?_newFuture (w := w) (g := w.futures.size) (.plain .timed)
    have own : w₁.kind? w.futures.size = some (.plain .timed) := by
      rw [kind?, purpose?_congr futures, made, if_pos rfl]
      rfl
    have aside : Grown (w.newFuture (.plain .timed)).2 w₁ := by
      refine .of_futures same (fun f s there => ?_) (fun f k there => ?_) fun f n there => ?_
      · exact (settlement?_congr futures).trans there
      · exact (congrArg (Option.map Purpose.kind) (purpose?_congr futures)).trans there
      · exact (loop?_congr futures).trans there
    have kept : Detains w w₁ := of_settlements fun _ =>
      (settlement?_congr futures).trans (settlement?_newFuture _)
    exact kept.trans ((Grown.newFuture _).trans aside) .settle (settle_kind own (by simp))
  | trans first second ih ih' =>
    exact (ih roles).trans (.scripted first) (.scripted second) (ih' (roles.scripted first).1)

theorem newJoint (chains : List FutureId) : Detains w (w.newJoint chains).2 := by
  have registered (l : List FutureId) (w : World) (g : FutureId) :
      Detains w (l.foldl (fun w child => w.onSettled child (.childEnded g child)) w) := by
    refine of_settlements fun f => ?_
    induction l generalizing w with
    | nil => rfl
    | cons c rest ih => exact (ih _).trans settlement?_onSettled
  have joint : (w.newFuture (.joint chains 0 false)).2.kind? w.futures.size = some (.joint chains) := by
    rw [kind?, purpose?_newFuture, if_pos rfl]
    rfl
  unfold World.newJoint
  dsimp only
  split
  · exact (newFuture _).trans (.newFuture _) .settle (settle_kind joint (by simp))
  · intro g b kind
    have later := registered chains (w.newFuture (.joint chains 0 false)).2 w.futures.size g b kind
    exact later.trans (settlement?_newFuture _)

theorem effect (roles : w.Roles) (e : Effect notes tasks w w') : Detains w w' := by
  induction e with
  | kept d => exact of_settlements fun _ => settlement?_congr d.loop.futures
  | scripted done => exact scripted roles done
  | described d =>
    refine of_settlements fun f => ?_
    obtain ⟨r, -, same⟩ | same := newCompletion_cases (d := d) <;> rw [same]
    · rfl
    · exact settlement?_newFuture (.plain .report)
  | recorded _ _ _ => exact of_settlements fun _ => settlement?_newFuture (.plain _)
  | tasked r _ => exact of_settlements fun _ => settlement?_newTask r
  | watched _ _ _ _ _ => exact of_settlements fun _ => settlement?_onSettled
  | joined _ _ => exact newJoint _
  | waited _ => exact of_settlements fun _ => settlement?_onSettled.trans (settlement?_newFuture _)
  | @concluded w run r s v known _ _ =>
    have outcome : w.outcome? run = some r.outcome := by
      rw [outcome?, known]
      rfl
    exact settle_kind (w := w.setStatus run s) (roles.outcomes run _ outcome) (by simp)
  | @failed w c x f known own _ _ =>
    exact settle_kind (roles.firsts c f (first?_of_known known own)) (by simp)
  | trans first second ih ih' =>
    exact (ih roles).trans (.effect first) (.effect second) (ih' (roles.effect first).1)

theorem handover (tasks : w.Tasks) (past : Handover w w') : Detains w w' := by
  cases past with
  | focused f _ _ _ => exact of_settlements fun _ => rfl
  | @suspended t f stack _ _ =>
    exact of_settlements fun _ => (settlement?_onSettled (w := w.setPosition t _ _)).trans
      (settlement?_setPosition _ _)
  | @yielded t stack _ =>
    exact of_settlements fun _ => (settlement?_post (w := w.setPosition t _ _) _).trans
      (settlement?_setPosition _ _)
  | @ended t o busy =>
    obtain ⟨m, active⟩ := (tasks.focus t (by rw [busy]; rfl)).2
    obtain ⟨s, same, -, -⟩ := endTask_cases (w := w) t o
    rw [same]
    intro g b kind
    have task : (w.setPosition t .active none).kind? t = some .task :=
      (Grown.setPosition (w := w) (f := t) .active none).kinds t _ (kind?_of_purpose? active)
    exact (settle_kind (s := s) task (by simp) g b kind).trans (settlement?_setPosition _ _)

theorem resumeTask (t : FutureId) (o : Outcome) : Detains w (w.resumeTask t o) := by
  obtain same | ⟨p, waiting, m, f, n, o', -, -, -, same, -⟩ :=
    resumeTask_cases (w := w) t o <;> rw [same]
  · exact of_settlements fun _ => rfl
  · exact of_settlements fun _ => settlement?_repurpose (w := w)

theorem childEnded (g c : FutureId) : Detains w (w.childEnded g c) := by
  obtain same | ⟨children, ended, requested, s, n, -, own, result⟩ := childEnded_cases (w := w) g c
  · rw [same]
    exact of_settlements fun _ => rfl
  · have counted := Grown.repurpose (q := .joint children (ended + 1) requested) own rfl
    have kept : Detains w (w.repurpose g (.joint children (ended + 1) requested)) :=
      of_settlements fun _ => settlement?_repurpose
    obtain ⟨same, -⟩ | ⟨s', same, -, -⟩ := result _ rfl <;> rw [same]
    · exact kept
    · have joint := counted.kinds g _ (kind?_of_purpose? own)
      have raised : Detains w ((w.repurpose g (.joint children (ended + 1) requested)).raisedTo n) := kept
      exact raised.trans (counted.trans (.raisedTo n)) .settle (settle_kind joint (by simp [Purpose.kind]))

end Detains

theorem Succeeded.of_detains (done : w'.Succeeded g) (kind : w'.kind? g = some (.plain (.waiter b)))
    (kept : Detains w w') : w.Succeeded g := by
  obtain ⟨v, settled⟩ := done
  exact ⟨v, (kept g b kind).symm.trans settled⟩

theorem Interrupted.succeeded (i : Interrupted w w') (done : w'.Succeeded f) : w.Succeeded f := by
  induction i with
  | refl _ => exact done
  | @settled w g _ _ =>
    obtain ⟨v, settled⟩ := done
    rcases settlement?_settle (w := w) (f := g) (s := .cancelled none) f with same | ⟨-, -, new⟩
    · exact ⟨v, same.symm.trans settled⟩
    · rw [new] at settled
      cases settled
  | asked _ =>
    obtain ⟨v, settled⟩ := done
    exact ⟨v, settlement?_repurpose.symm.trans settled⟩
  | told _ =>
    obtain ⟨v, settled⟩ := done
    exact ⟨v, settlement?_repurpose.symm.trans settled⟩
  | trans _ _ ih ih' => exact ih (ih' done)

/-- Only the end of what somebody waits for through another future frees them. -/
theorem Move.frees (sound : w.Sound) (m : Move plan w w')
    (kind : w'.kind? g = some (.plain (.waiter b))) (done : w'.Succeeded g) :
    w.Succeeded g ∨ ∃ w₁, w.nextJob? = some (.release g b, w₁) := by
  cases m with
  | stepped stepped =>
    cases step_stepped sound.steady stepped with
    | @acted _ _ w₁ _ act =>
      have done' : w₁.Succeeded g := done
      exact .inl (done'.of_detains kind (.effect sound.roles act.effect))
    | suspended busy pending =>
      exact .inl (done.of_detains kind (.handover sound.tasks (.suspended busy pending)))
    | yielded busy => exact .inl (done.of_detains kind (.handover sound.tasks (.yielded busy)))
    | ended busy => exact .inl (done.of_detains kind (.handover sound.tasks (.ended busy)))
    | @handled j w₁ idle next =>
      have back (before : w₁.Succeeded g) : w.Succeeded g := by
        obtain ⟨v, settled⟩ := before
        exact ⟨v, (settlement?_congr (nextJob_futures next)).symm.trans settled⟩
      have roles := sound.roles.of_nextJob next
      have there := mem_jobs_of_next next
      have same := kind?_congr (nextJob_futures next)
      have rest : Handled j w₁ (w₁.runJob plan j) := sound.steady.handled next
      generalize w₁.runJob plan j = w' at rest kind done
      cases rest with
      | effect e _ => exact .inl (back (done.of_detains kind (.effect roles e)))
      | resumed => exact .inl (back (done.of_detains kind (.resumeTask _ _)))
      | @woken t f _ s _ =>
        have delivered : Detains w₁ (w₁.deliver s).2 := .effect roles (.deliver s)
        have kept := delivered.trans (.effect (.deliver s)) (.resumeTask t (w₁.deliver s).1) (.resumeTask _ _)
        exact .inl (back (done.of_detains kind kept))
      | counted => exact .inl (back (done.of_detains kind (.childEnded _ _)))
      | @freed g' f =>
        have waiter : w₁.kind? g' = some (.plain (.waiter f)) :=
          (same g').trans (sound.roles.releases g' f there)
        obtain ⟨v, settled⟩ := done
        rcases settlement?_settle (w := w₁) (f := g') (s := .value .nothing) g with old | ⟨rfl, -, -⟩
        · exact .inl (back ⟨v, old.symm.trans settled⟩)
        · have kind' := Grown.settle (w := w₁) (f := g) (s := .value .nothing)
          have mine := (kind'.kinds g _ waiter).symm.trans kind
          obtain rfl : f = b := by simpa using mine
          exact .inr ⟨w₁, next⟩
      | @matured f how _ s n _ =>
        have timed : (w₁.raisedTo n).kind? f = some (.plain .timed) :=
          (same f).trans (sound.roles.settles f how there)
        exact .inl (back (done.of_detains (w := w₁.raisedTo n) kind (.settle_kind timed (by simp))))
      | stopped => exact .inl (back done)
    | turned idle next =>
      refine .inl (done.of_detains kind (.of_settlements fun f => settlement?_congr ?_))
      obtain ⟨_, -, rfl⟩ := nextTurn_cases next
      rfl
  | supplied _ => exact .inl done
  | called r _ => exact .inl (done.of_detains kind (.of_settlements fun _ => settlement?_newTask r))
  | observed f => exact .inl (done.of_detains kind .onSettled)
  | cleared => exact .inl done
  | cancelled f => exact .inl ((cancel_interrupted f).succeeded done)
  | turned => exact .inl done
  | opened _ _ _ _ => exact .inl done
  | closed _ => exact .inl done

/-! ### Jobs that stay -/

theorem Move.frozen (sound : w.Sound) (m : Move plan w w') (closed : w.Frozen f) : w'.Frozen f := by
  obtain ⟨n, own, alone, other⟩ := closed
  have loops := (m.grown sound.steady).loops f n own
  have kept (keeps : Keeps w w') : w'.Frozen f := keeps.frozen ⟨n, own, alone, other⟩
  cases m with
  | stepped stepped =>
    cases step_stepped sound.steady stepped with
    | acted act => exact ⟨n, loops, alone, (Keeps.motion sound.lanes (.effect act.effect)).loop ▸ other⟩
    | suspended busy pending =>
      exact kept (.motion sound.lanes (.handover (.suspended busy pending)))
    | yielded busy => exact kept (.motion sound.lanes (.handover (.yielded busy)))
    | ended busy => exact kept (.motion sound.lanes (.handover (.ended busy)))
    | @handled j w₁ idle next =>
      have keeps : Keeps w₁ (w₁.runJob plan j) :=
        .motion (sound.lanes.nextJob next) (.handled (sound.steady.handled next))
      exact ⟨n, loops, alone, keeps.loop.trans (nextJob_sameRuns next).loop ▸ other⟩
    | turned idle next =>
      refine ⟨n, loops, alone, ?_⟩
      obtain ⟨_, -, rfl⟩ := nextTurn_cases next
      exact other
  | supplied _ => exact ⟨n, loops, alone, other⟩
  | called r _ => exact kept (.motion sound.lanes (.newTask r))
  | observed f => exact kept (.motion sound.lanes (.asked (by simp [Job.source?]) (by simp [Job.IsNotice])))
  | cleared => exact ⟨n, loops, alone, other⟩
  | cancelled f => exact kept (.motion sound.lanes (.interrupted (cancel_interrupted f)))
  | turned => exact ⟨n, loops, alone, other⟩
  | opened m main _ new =>
    refine ⟨n, loops, alone, ?_⟩
    obtain ⟨x, found, same⟩ := Option.map_eq_some_iff.mp own
    exact same ▸ new f x found
  | closed _ => exact ⟨n, loops, alone, alone⟩

/-- A job that waits for a future stays until it is run, or the loop of the future is closed. -/
theorem Move.keeps (sound : w.Sound) (m : Move plan w w') (member : j ∈ w.jobs)
    (source : j.source? = some f) : j ∈ w'.jobs ∨ w'.Frozen f ∨
      ∃ w₁, w.focus = .idle ∧ w.nextJob? = some (j, w₁) ∧ w' = w₁.runJob plan j := by
  have kept (motion : Motion w w') : j ∈ w'.jobs ∨ w'.Frozen f ∨
      ∃ w₁, w.focus = .idle ∧ w.nextJob? = some (j, w₁) ∧ w' = w₁.runJob plan j :=
    ((Keeps.motion sound.lanes motion).jobs j member f source).imp_right .inl
  cases m with
  | stepped stepped =>
    cases step_stepped sound.steady stepped with
    | acted act => exact kept ((Motion.effect act.effect).trans (.focusOn _))
    | suspended busy pending => exact kept (.handover (.suspended busy pending))
    | yielded busy => exact kept (.handover (.yielded busy))
    | ended busy => exact kept (.handover (.ended busy))
    | @handled k w₁ idle next =>
      rw [jobs_nextJob next] at member
      rcases List.mem_cons.mp member with rfl | later
      · exact .inr (.inr ⟨w₁, idle, next, rfl⟩)
      · have keeps : Keeps w₁ (w₁.runJob plan k) :=
          .motion (sound.lanes.nextJob next) (.handled (sound.steady.handled next))
        exact (keeps.jobs j later f source).imp_right .inl
    | turned idle next => exact .inl ((jobs_nextTurn next).symm.subset member)
  | supplied _ => exact .inl member
  | called r _ => exact kept (.newTask r)
  | observed f => exact kept (.asked (by simp [Job.source?]) (by simp [Job.IsNotice]))
  | cleared => exact .inl member
  | cancelled f => exact kept (.interrupted (cancel_interrupted f))
  | turned => exact .inl (jobs_beginTurn.symm.subset member)
  | opened n main other new =>
    left
    rcases mem_jobs member with ready | parked | ⟨t, timed, rfl⟩ | ⟨g, js, own, called⟩
    · exact mem_jobs_of_parked (w := w.openLoop n) ready
    · exact absurd main (sound.lanes.away (List.ne_nil_of_mem parked))
    · rw [sound.lanes.timers t timed] at source
      cases source
    · exact mem_jobs_of_callback (w := w.openLoop n) (g := g) own called
  | closed alone =>
    rcases mem_jobs member with ready | parked | ⟨t, timed, rfl⟩ | ⟨g, js, own, called⟩
    · obtain ⟨-, loop⟩ := sound.lanes.ready.sources _ ready f source
      exact .inr (.inl ⟨w.agenda.loop, loop, alone, alone⟩)
    · exact .inl (mem_jobs_of_ready (w := w.dropLoop) parked)
    · rw [sound.lanes.timers t timed] at source
      cases source
    · exact .inl (mem_jobs_of_callback (w := w.dropLoop) (g := g) own called)

/-! ### Bodies and those who wait for them -/

def Freed (w : World) : Prop := ∀ g b, w.kind? g = some (.plain (.waiter b)) → w.Succeeded g →
  (∃ s, w.settlement? b = some s) ∧ ∀ run, ¬ w.Awaits run b

theorem Freed.move (h : Freed w) (sound : w.Sound) (m : Move plan w w') : Freed w' := by
  have grown := m.grown sound.steady
  intro g b kind done
  have ended : (∃ s, w.settlement? b = some s) ∧ ∀ run, ¬ w.Awaits run b := by
    rcases m.frees sound kind done with before | ⟨w₁, next⟩
    · obtain ⟨v, settled⟩ := before
      have old : g < w.futures.size := settlement?_lt settled
      exact h g b (grown.kind_of_lt old kind) ⟨v, settled⟩
    · obtain ⟨past, -, told⟩ := sound.lanes.noticed next
      exact ⟨past, told⟩
  obtain ⟨⟨s, settled⟩, told⟩ := ended
  refine ⟨⟨s, grown.settlements b s settled⟩, fun run waits => ?_⟩
  rcases m.awaits sound.steady waits with old | ⟨_, _, _, _, h, act, -, member⟩
  · exact told run old
  · cases act.happens member with
    | began _ _ _ _ new =>
      rw [settlement?_new (new b rfl)] at settled
      cases settled

theorem Freed.fresh (h : w.Fresh) : Freed w := by
  intro g b kind
  simp [kind?, purpose?, future?, h.futures] at kind

theorem Reachable.freed (h : Reachable plan w) : Freed w := by
  induction h with
  | fresh fresh => exact .fresh fresh
  | move before m ih => exact ih.move before.sound m

/-- Whether the loop of a body is closed, so that nobody who still waits for it is freed. -/
def Missed (w : World) (b : FutureId) : Prop :=
  w.Frozen b ∧ ∀ g, w.kind? g = some (.plain (.waiter b)) → ¬ w.Succeeded g

/-- Whether a run has been told of the end of a member's body: a failure has settled the run or has
failed the descriptor, unless the descriptor kept it from the run. -/
def Heard (w : World) (run : RunId) (h : Head) (c : CompletionId) (b : FutureId) : Prop :=
  ∃ s, w.settlement? b = some s ∧ ∀ e, s = .failed e →
    (∃ d, d.isRebound ∧ (run, .unheard h e d) ∈ w.notes) ∨ w.isSettled run ∨ w.Doomed c e

def Watched (w : World) (run : RunId) (h : Head) (c : CompletionId) (b : FutureId) : Prop :=
  (∃ node explicit, node.head = h ∧ .bodyEnded run node c explicit b ∈ w.jobs) ∨ w.Missed b ∨
    w.Heard run h c b

theorem Lanes.taken (lanes : Lanes w) (next : w.nextJob? = some (j, w')) (source : j.source? = some f) :
    ∃ s, w.settlement? f = some s := by
  obtain ⟨_, _, queue, -⟩ := nextJob_cases next
  have first : j ∈ w.agenda.ready := queue ▸ List.mem_cons_self
  exact Option.isSome_iff_exists.mp (lanes.ready.sources j first f source).1

theorem Move.settled (steady : w.Steady) (m : Move plan w w') (past : w.isSettled run) : w'.isSettled run := by
  obtain ⟨-, -, same, -⟩ := m.inert steady past
  rw [isSettled_of_record same]
  exact past

theorem Doomed.grown {e : Raised} (doomed : w.Doomed c e) (grown : Grown w w') : w'.Doomed c e := by
  obtain ⟨f, report, failed⟩ := doomed
  exact ⟨f, grown.firsts c f report, grown.settlements f _ failed⟩

theorem Grown.subset_notes (grown : Grown w w') : w.notes ⊆ w'.notes :=
  (grown.journal.map fun x : RunId × Nat × Happening => (x.1, x.2.2)).subset

theorem Heard.move (heard : w.Heard run h c b) (steady : w.Steady) (m : Move plan w w') :
    w'.Heard run h c b := by
  obtain ⟨s, settled, told⟩ := heard
  have grown := m.grown steady
  refine ⟨s, grown.settlements b s settled, fun e failed => ?_⟩
  rcases told e failed with ⟨d, rebound, unheard⟩ | past | doomed
  · exact .inl ⟨d, rebound, grown.subset_notes unheard⟩
  · exact .inr (.inl (m.settled steady past))
  · exact .inr (.inr (doomed.grown grown))

theorem Missed.move (missed : w.Missed b) (sound : w.Sound) (m : Move plan w w') : w'.Missed b := by
  refine ⟨m.frozen sound missed.1, fun g kind done => ?_⟩
  rcases m.frees sound kind done with ⟨v, settled⟩ | ⟨w₁, next⟩
  · have old : g < w.futures.size := settlement?_lt settled
    exact missed.2 g ((m.grown sound.steady).kind_of_lt old kind) ⟨v, settled⟩
  · exact (sound.lanes.noticed next).2.1 missed.1

theorem BodyEnds.heard {node : Node} (ends : BodyEnds run node.head c b w notes w')
    (settled : ∃ s, w.settlement? b = some s) (report : w.first? c = some f)
    (known : (w.record? run).isSome) : w'.Heard run node.head c b := by
  obtain ⟨s, settled⟩ := settled
  have grown := Grown.effect ends.effect
  have there := grown.settlements b s settled
  cases ends with
  | quiet _ other => exact ⟨s, there, fun e failed => absurd (failed ▸ settled) (other e)⟩
  | doomed failed _ doomed =>
    refine ⟨s, there, fun e same => .inr (.inr ?_)⟩
    obtain rfl := Settlement.failed.inj (same.symm.trans (Option.some.inj (settled.symm.trans failed)))
    exact doomed f report
  | @unheard _ _ d failed effect =>
    have rebound : d.isRebound := by
      rcases effect.fits (List.mem_singleton_self _) with ⟨u, rebound⟩ | ⟨s, settlement⟩
      · exact rebound
      · cases settlement
    refine ⟨s, there, fun e same => .inl ⟨d, rebound, ?_⟩⟩
    have mine := Option.some.inj (settled.symm.trans failed)
    obtain rfl := Settlement.failed.inj (same.symm.trans mine)
    rw [effect.noted]
    exact List.mem_cons_self
  | rejecting _ _ effect rejects =>
    refine ⟨s, there, fun e _ => .inr (.inl ?_)⟩
    by_cases past : w.isSettled run
    · rcases effect.status run with same | ⟨-, now, -⟩
      · exact (isSettled_of_status same).trans past
      · rw [isSettled]
        cases status : w'.status run <;> simp_all [Status.isSettled]
    · obtain ⟨ms, now⟩ := rejects known (by simpa using past)
      rw [isSettled, now]
      rfl

/-- However the machine moves on, a run keeps being told of the end of a body, or has been told. -/
theorem Watched.move (watched : w.Watched run h c b) (sound : w.Sound) (freed : w.Freed)
    (report : w.first? c = some f) (known : (w.record? run).isSome) (m : Move plan w w') :
    w'.Watched run h c b := by
  rcases watched with ⟨node, explicit, rfl, member⟩ | missed | heard
  · rcases m.keeps sound member rfl with stays | closed | ⟨w₁, idle, next, rfl⟩
    · exact .inl ⟨node, explicit, rfl, stays⟩
    · refine .inr (.inl ⟨closed, fun g kind done => ?_⟩)
      have waits : w.Awaits run b := ⟨node, c, explicit, member⟩
      rcases m.frees sound kind done with ⟨v, settled⟩ | ⟨w₁, next⟩
      · have old : g < w.futures.size := settlement?_lt settled
        have kind' := (m.grown sound.steady).kind_of_lt old kind
        exact (freed g b kind' ⟨v, settled⟩).2 run waits
      · exact (sound.lanes.noticed next).2.2 run waits
    · have futures := nextJob_futures next
      have same := nextJob_sameRuns next
      obtain ⟨s, settled⟩ := sound.lanes.taken next (f := b) rfl
      obtain ⟨notes, ends⟩ := bodyEnded_ends (w := w₁) plan run node c explicit b fun e failed =>
        sound.proper.settlements b _ ((settlement?_congr futures).symm.trans failed)
      have report' := (first?_of_map same.firsts c).trans report
      refine .inr (.inr (ends.heard ⟨s, (settlement?_congr futures).trans settled⟩ report' ?_))
      rw [record?_congr same.records]
      exact known
  · exact .inr (.inl (missed.move sound m))
  · exact .inr (.inr (heard.move sound.steady m))

/-- Whoever waits for a body through a future of its own goes on after the run has been told. -/
theorem Watched.heard (watched : w.Watched run h c b) (freed : w.Freed)
    (kind : w.kind? g = some (.plain (.waiter b))) (done : w.Succeeded g) : w.Heard run h c b := by
  rcases watched with ⟨node, explicit, -, member⟩ | missed | heard
  · exact absurd ⟨node, c, explicit, member⟩ ((freed g b kind done).2 run)
  · exact absurd done (missed.2 g kind)
  · exact heard

end Conductor.World
