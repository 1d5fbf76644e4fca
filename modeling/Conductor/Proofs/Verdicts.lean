import Conductor.Proofs.Sound

/-!
# Records and their outcomes

The record of a run and the future that its caller waits for settle together: with the record if the
run is resolved, with its error if it is rejected. Only a cancellation from outside settles the future
alone, and only the end of an iteration, which no future can be given as a failure, rejects a run and
leaves its caller waiting.
-/

namespace Conductor.World

/-- How the outcome of a run may stand when its record stands at some status. -/
def Agreement (run : RunId) : Status → Option Settlement → Prop
  | _, some (.cancelled _) => True
  | .running, none => True
  | .running, some _ => False
  | .resolved _, none => False
  | .resolved _, some s => s = .value (.record run)
  | .rejected _ e, none => e.fault.nature = .stopIteration
  | .rejected _ e, some s => s = .failed e ∧ e.fault.nature ≠ .stopIteration

def Verdicts (w : World) : Prop :=
  ∀ run r, w.record? run = some r → Agreement run r.status (w.settlement? r.outcome)

def Spares (w w' : World) : Prop :=
  ∀ f run, w.kind? f = some (.plain (.outcome run)) → w'.settlement? f = w.settlement? f

variable {w w' : World} {f : FutureId} {s : Settlement} {j : Job} {notes : List Note}
  {tasks : List (FutureId × Routine)} {plan : Plan} {run : RunId} {r : Record}

namespace Spares

theorem of_settlements (same : ∀ f, w'.settlement? f = w.settlement? f) : Spares w w' :=
  fun f _ _ => same f

theorem trans {w₁ w₂ w₃ : World} (h : Spares w₁ w₂) (grown : Grown w₁ w₂) (h' : Spares w₂ w₃) :
    Spares w₁ w₃ :=
  fun f run own => (h' f run (grown.kinds f _ own)).trans (h f run own)

theorem settle (other : ∀ run, w.kind? f ≠ some (.plain (.outcome run))) :
    Spares w (w.settle f s) := by
  intro g run own
  refine settlement?_settle_other ?_
  rintro rfl
  exact other run own

theorem settle_kind {kind : Kind} (own : w.kind? f = some kind)
    (other : ∀ run, kind ≠ .plain (.outcome run)) : Spares w (w.settle f s) :=
  settle fun run outcome => other run (Option.some.inj (own.symm.trans outcome))

theorem settle_new (sparing : Spares w w') (new : w.futures.size ≤ f) : Spares w (w'.settle f s) := by
  intro g run own
  obtain ⟨p, there, -⟩ := Option.map_eq_some_iff.mp own
  have other : g ≠ f := Nat.ne_of_lt (Nat.lt_of_lt_of_le (purpose?_lt there) new)
  exact (settlement?_settle_other other).trans (sparing g run own)

theorem scripted (roles : w.Roles) (h : Scripted w w') : Spares w w' := by
  induction h with
  | aside _ futures _ _ => exact of_settlements fun f => settlement?_congr futures
  | @reported w c x f _ known own =>
    exact settle_kind (roles.firsts c f (first?_of_known known own)) (by simp)
  | postponed _ _ _ => exact of_settlements fun _ => rfl
  | queued _ _ => exact of_settlements fun _ => settlement?_post _
  | made => exact of_settlements fun _ => settlement?_newFuture _
  | timed _ _ => exact of_settlements fun _ => settlement?_newFuture (.plain .timed)
  | settled s _ _ futures _ =>
    refine settle_new (of_settlements fun f => ?_) (Nat.le_refl _)
    exact (settlement?_congr futures).trans (settlement?_newFuture _)
  | trans first _ ih ih' =>
    exact (ih roles).trans (.scripted first) (ih' (roles.scripted first).1)

theorem newJoint (chains : List FutureId) : Spares w (w.newJoint chains).2 := by
  have registered (l : List FutureId) (w : World) (g : FutureId) :
      Spares w (l.foldl (fun w child => w.onSettled child (.childEnded g child)) w) := by
    induction l generalizing w with
    | nil => exact of_settlements fun _ => rfl
    | cons c rest ih =>
      exact (of_settlements fun _ => settlement?_onSettled).trans .onSettled (ih _)
  have made : Spares w (w.newFuture (.joint chains 0 false)).2 :=
    of_settlements fun _ => settlement?_newFuture _
  unfold World.newJoint
  dsimp only
  split
  · exact settle_new made (Nat.le_refl _)
  · exact made.trans (.newFuture _) (registered chains _ _)

end Spares

namespace Verdicts

theorem same (h : Verdicts w) (roles : w.Roles) (records : w'.records = w.records)
    (sparing : Spares w w') : Verdicts w' := by
  intro run r known
  have before := (record?_congr records run).symm.trans known
  have outcome : w.outcome? run = some r.outcome := by
    rw [outcome?, before]
    rfl
  rw [sparing r.outcome run (roles.outcomes run r.outcome outcome)]
  exact h run r before

/-- A running record whose outcome is settled has been cancelled from outside. -/
theorem running (h : Verdicts w) (known : w.record? run = some r) (running : r.status = .running) :
    w.settlement? r.outcome = none ∨ ∃ cause, w.settlement? r.outcome = some (.cancelled cause) := by
  have agrees := h run r known
  rw [running] at agrees
  cases past : w.settlement? r.outcome with
  | none => exact .inl rfl
  | some s =>
    rw [past] at agrees
    cases s with
    | cancelled cause => exact .inr ⟨cause, rfl⟩
    | value v => exact agrees.elim
    | failed e => exact agrees.elim

theorem outcome_of_record (known : w.record? run = some r) : w.outcome? run = some r.outcome := by
  rw [outcome?, known]
  rfl

/-- The record of one run changes its status, and its outcome takes the verdict or stays. -/
theorem setStatus (h : Verdicts w) (roles : w.Roles) {status : Status}
    (records : w'.records = (w.setStatus run status).records) (known : w.record? run = some r)
    (others : ∀ f other, other ≠ run → w.kind? f = some (.plain (.outcome other)) →
      w'.settlement? f = w.settlement? f)
    (agrees : Agreement run status (w'.settlement? r.outcome)) : Verdicts w' := by
  intro other r' known'
  have there : (w.setStatus run status).record? other = some r' :=
    (record?_congr records other).symm.trans known'
  rw [record?_setStatus] at there
  by_cases same : other = run
  · subst same
    rw [if_pos rfl, known] at there
    obtain rfl := Option.some.inj there
    exact agrees
  · rw [if_neg same] at there
    rw [others r'.outcome other same (roles.outcomes other _ (outcome_of_record there))]
    exact h other r' there

theorem refused (h : Verdicts w) (roles : w.Roles) {status : Status}
    (known : w.record? run = some r) (running : r.status = .running)
    (why : w.isPending r.outcome = false ∨
      ∃ ms e, status = .rejected ms e ∧ e.fault.nature = .stopIteration) :
    Verdicts (w.setStatus run status) := by
  refine h.setStatus roles rfl known (fun _ _ _ _ => rfl) ?_
  change Agreement run status (w.settlement? r.outcome)
  rcases h.running known running with pending | ⟨cause, cancelled⟩
  · rcases why with past | ⟨ms, e, rfl, nature⟩
    · -- the outcome of a run is a future that there is
      obtain ⟨p, own, -⟩ := Option.map_eq_some_iff.mp
        (roles.outcomes run r.outcome (outcome_of_record known))
      obtain ⟨x, found⟩ := future?_isSome (purpose?_lt own)
      rw [settlement?_of_future? found] at pending
      simp [isPending, found, pending] at past
    · rw [pending]
      exact nature
  · rw [cancelled]
    cases status <;> trivial

theorem concluded (h : Verdicts w) (roles : w.Roles) {status : Status}
    (known : w.record? run = some r) (running : r.status = .running)
    (verdict : status.Verdict run s) : Verdicts ((w.setStatus run status).settle r.outcome s) := by
  have mine := roles.outcomes run r.outcome (outcome_of_record known)
  refine h.setStatus roles settle_sameRuns.records known (fun f other different own => ?_) ?_
  · refine settlement?_settle_other ?_
    rintro rfl
    rw [mine] at own
    simp only [Option.some.injEq, Kind.plain.injEq, Role.outcome.injEq] at own
    exact different own.symm
  · rcases h.running known running with pending | ⟨cause, cancelled⟩
    · obtain ⟨p, own, -⟩ := Option.map_eq_some_iff.mp mine
      obtain ⟨x, found⟩ := future?_isSome (purpose?_lt own)
      rw [settlement?_of_future? found] at pending
      rw [settlement?_settle_self (w := w.setStatus run status) found, pending]
      cases status with
      | running => exact verdict.elim
      | resolved ms =>
        obtain rfl := verdict
        rfl
      | rejected ms e =>
        obtain ⟨rfl, proper⟩ := verdict
        exact ⟨rfl, proper⟩
    · have stays := (Grown.settle (w := w.setStatus run status) (f := r.outcome) (s := s)).settlements
        r.outcome (.cancelled cause) cancelled
      rw [stays]
      cases status <;> trivial

theorem recorded (h : Verdicts w) (own : r.outcome = w.futures.size)
    (running : r.status = .running) :
    Verdicts ((w.newFuture (.plain (.outcome w.records.size))).2.addRecord r) := by
  intro run r' known
  have settlement : ((w.newFuture (.plain (.outcome w.records.size))).2.addRecord r).settlement?
      r'.outcome = w.settlement? r'.outcome := settlement?_newFuture (.plain _)
  rw [settlement]
  unfold record? addRecord at known
  rw [Array.getElem?_push] at known
  by_cases new : run = w.records.size
  · have none : w.settlement? w.futures.size = none := by
      simp [settlement?, future?]
    have there : (if run = w.records.size then some r else w.records[run]?) = some r' := known
    rw [if_pos new] at there
    obtain rfl := Option.some.inj there
    rw [own, none, running]
    trivial
  · have there : (if run = w.records.size then some r else w.records[run]?) = some r' := known
    rw [if_neg new] at there
    exact h run r' there

theorem effect (h : Verdicts w) (roles : w.Roles) (e : Effect notes tasks w w') : Verdicts w' := by
  induction e with
  | kept d =>
    cases d with
    | noted _ => exact h.same roles rfl (.of_settlements fun _ => rfl)
    | refused known running _ why => exact h.refused roles known running why
    | marked _ => exact h.same roles rfl (.of_settlements fun _ => rfl)
  | scripted done => exact h.same roles done.sameRuns.records (.scripted roles done)
  | described d =>
    refine h.same roles (newCompletion_records d) (.of_settlements fun f => ?_)
    obtain ⟨r, -, same⟩ | same := newCompletion_cases (d := d) <;> rw [same]
    · rfl
    · exact settlement?_newFuture (.plain .report)
  | recorded r own running => exact h.recorded own running
  | tasked r _ =>
    exact h.same roles (newTask_sameRuns r).records (.of_settlements fun _ => settlement?_newTask r)
  | watched _ _ _ _ _ =>
    exact h.same roles onSettled_sameRuns.records (.of_settlements fun _ => settlement?_onSettled)
  | joined _ _ => exact h.same roles (newJoint_sameRuns _).records (.newJoint _)
  | waited _ =>
    exact h.same roles onSettled_sameRuns.records
      (.of_settlements fun _ => settlement?_onSettled.trans (settlement?_newFuture _))
  | concluded known running verdict => exact h.concluded roles known running verdict
  | @failed w c x f known own _ _ =>
    exact h.same roles settle_sameRuns.records (.settle_kind (roles.firsts c f (first?_of_known known own)) (by simp))
  | trans first _ ih ih' => exact ih' (ih h roles) (roles.effect first).1

theorem focusOn (h : Verdicts w) (f : Focus) : Verdicts (w.focusOn f) := h

theorem settle (h : Verdicts w) (roles : w.Roles) {kind : Kind} (own : w.kind? f = some kind)
    (other : ∀ run, kind ≠ .plain (.outcome run)) : Verdicts (w.settle f s) :=
  h.same roles settle_sameRuns.records (.settle_kind own other)

theorem setPosition (h : Verdicts w) (roles : w.Roles) (t : FutureId) (p : Position)
    (waiting : Option FutureId) : Verdicts (w.setPosition t p waiting) :=
  h.same roles (setPosition_sameRuns p waiting).records
    (.of_settlements fun _ => settlement?_setPosition p waiting)

theorem handover (h : Verdicts w) (roles : w.Roles) (tasks : w.Tasks) (past : Handover w w') :
    Verdicts w' := by
  cases past with
  | focused f _ _ _ => exact h.focusOn f
  | @suspended t f stack _ _ =>
    have stood := h.setPosition roles t (.suspended stack) (some f)
    refine focusOn (w := (w.setPosition t (.suspended stack) (some f)).onSettled f (.wake t f)) ?_ .idle
    exact stood.same (roles.setPosition t _ _) onSettled_sameRuns.records
      (.of_settlements fun _ => settlement?_onSettled)
  | @yielded t stack _ =>
    have stood := h.setPosition roles t (.suspended stack) .none
    refine focusOn ?_ .idle
    exact stood.same (roles.setPosition t _ _) (post_sameRuns _).records
      (.of_settlements fun _ => settlement?_post _)
  | @ended t o busy =>
    obtain ⟨s, same, -, -⟩ := endTask_cases (w := w) t o
    rw [same]
    obtain ⟨-, m, own⟩ := tasks.focus t (by rw [busy]; rfl)
    have kind := Grown.setPosition (f := t) .active .none |>.kinds t .task (kind?_of_purpose? own)
    refine focusOn ?_ .idle
    exact (h.setPosition roles t _ _).settle (roles.setPosition t _ _) kind (by simp)

theorem resumeTask (h : Verdicts w) (roles : w.Roles) (t : FutureId) (o : Outcome) :
    Verdicts (w.resumeTask t o) := by
  obtain same | ⟨p, waiting, m, f, n, o', -, -, -, same, -⟩ :=
    resumeTask_cases (w := w) t o <;> rw [same]
  · exact h
  · have begun : Verdicts (w.activate t) :=
      h.same roles (repurpose_sameRuns _).records (.of_settlements fun _ => settlement?_repurpose)
    exact begun

theorem childEnded (h : Verdicts w) (roles : w.Roles) (g c : FutureId) :
    Verdicts (w.childEnded g c) := by
  obtain same | ⟨children, ended, requested, s, n, -, own, result⟩ :=
    childEnded_cases (w := w) g c
  · rw [same]
    exact h
  · have counted : Verdicts (w.repurpose g (.joint children (ended + 1) requested)) :=
      h.same roles (repurpose_sameRuns _).records (.of_settlements fun _ => settlement?_repurpose)
    obtain ⟨same, -⟩ | ⟨s', same, -, -⟩ := result _ rfl <;> rw [same]
    · exact counted
    · have raised : Verdicts ((w.repurpose g (.joint children (ended + 1) requested)).raisedTo n) :=
        counted
      have kind : ((w.repurpose g (.joint children (ended + 1) requested)).raisedTo n).kind? g
          = some (.joint children) :=
        (Grown.repurpose (q := .joint children (ended + 1) requested) own rfl).kinds g _
          (kind?_of_purpose? own)
      have roles' := roles.repurpose (q := .joint children (ended + 1) requested) own rfl
      exact raised.settle (roles'.raisedTo n) kind (by simp)

theorem handled (h : Verdicts w) (roles : w.Roles) (next : w.nextJob? = some (j, w'))
    {w₂ : World} (rest : Handled j w' w₂) : Verdicts w₂ := by
  have roles' := roles.of_nextJob next
  have member : j ∈ w.jobs := jobs_nextJob next ▸ List.mem_cons_self
  have taken : Verdicts w' := h.same roles (nextJob_sameRuns next).records
    (.of_settlements fun f => settlement?_congr (nextJob_futures next))
  have kinds (f : FutureId) : w'.kind? f = w.kind? f :=
    congrArg (Option.map Purpose.kind) (purpose?_congr (nextJob_futures next))
  cases rest with
  | effect e _ => exact taken.effect roles' e
  | resumed => exact taken.resumeTask roles' _ _
  | woken _ =>
    exact (taken.effect roles' (.deliver _)).resumeTask (roles'.effect (.deliver _)).1 _ _
  | counted => exact taken.childEnded roles' _ _
  | @freed g f =>
    exact taken.settle roles' ((kinds g).trans (roles.releases g f member)) (by simp)
  | @matured f how s _ n =>
    have raised : Verdicts (w'.raisedTo n) := taken
    exact raised.settle (roles'.raisedTo n) ((kinds f).trans (roles.settles f how member)) (by simp)
  | stopped => exact taken

theorem nextTurn (h : Verdicts w) (roles : w.Roles) (next : w.nextTurn? = some w') : Verdicts w' := by
  obtain ⟨_, -, rfl⟩ := nextTurn_cases next
  exact h.same roles rfl (.of_settlements fun _ => rfl)

theorem change (h : Verdicts w) (roles : w.Roles) (tasks : w.Tasks) (c : Change w w') : Verdicts w' := by
  cases c with
  | worked e past =>
    have roles' := (roles.effect e).1
    exact (h.effect roles e).handover roles' (tasks.effect roles e) past
  | handled _ next rest => exact h.handled roles next rest
  | turned _ next => exact h.nextTurn roles next

theorem interrupted (h : Verdicts w) (roles : w.Roles) (i : Interrupted w w') : Verdicts w' := by
  induction i with
  | refl _ => exact h
  | @settled w f role plain =>
    intro run r known
    have before : w.record? run = some r :=
      (record?_congr (settle_sameRuns (w := w) (f := f)).records run).symm.trans known
    rcases settlement?_settle (w := w) (f := f) (s := .cancelled .none) r.outcome with
      same | ⟨-, -, cancelled⟩
    · rw [same]
      exact h run r before
    · rw [cancelled]
      cases r.status <;> trivial
  | asked _ => exact h.same roles rfl (.of_settlements fun _ => settlement?_repurpose)
  | told _ => exact h.same roles rfl (.of_settlements fun _ => settlement?_repurpose)
  | trans first _ ih ih' => exact ih' (ih h roles) (roles.interrupted first)

theorem fresh (h : w.Fresh) : Verdicts w := by
  intro run r known
  simp [record?, h.records] at known

theorem move (h : Verdicts w) (sound : Sound w) (m : Move plan w w') : Verdicts w' := by
  have roles := sound.roles
  cases m with
  | stepped stepped =>
    exact h.change roles sound.tasks (step_change sound.steady stepped)
  | supplied _ => exact h.same roles rfl (.of_settlements fun _ => rfl)
  | called r _ =>
    exact h.same roles (newTask_sameRuns r).records (.of_settlements fun _ => settlement?_newTask r)
  | observed _ =>
    exact h.same roles onSettled_sameRuns.records (.of_settlements fun _ => settlement?_onSettled)
  | cleared => exact h.same roles rfl (.of_settlements fun _ => rfl)
  | cancelled f => exact h.interrupted roles (cancel_interrupted f)
  | turned => exact h.same roles rfl (.of_settlements fun _ => rfl)
  | opened _ _ _ _ => exact h.same roles rfl (.of_settlements fun _ => rfl)
  | closed _ => exact h.same roles rfl (.of_settlements fun _ => rfl)

end Verdicts

theorem Reachable.verdicts (h : Reachable plan w) : Verdicts w := by
  induction h with
  | fresh fresh => exact .fresh fresh
  | move before m ih => exact ih.move before.sound m

/-- Whether the caller of a run has been cancelled from outside. -/
def isWithdrawn (w : World) (run : RunId) : Bool :=
  match w.settlement? (w.outcomeOf run) with
  | some (.cancelled _) => true
  | _ => false

/-- In every reachable state the record of a run, unless its caller was cancelled, is resolved exactly
if its outcome is the record, and rejected exactly if its outcome is the error of the record. The end
of an iteration is the exception: it rejects the record of a run whose outcome stays pending. -/
theorem record_agrees_with_outcome (h : Reachable plan w) (known : w.record? run = some r)
    (own : w.isWithdrawn run = false) :
    (w.settlement? r.outcome = some (.value (.record run)) ↔ ∃ ms, r.status = .resolved ms) ∧
    (∀ e, w.settlement? r.outcome = some (.failed e) ↔
      r.status.error? = some e ∧ e.fault.nature ≠ .stopIteration) ∧
    (w.settlement? r.outcome = none ↔ r.status = .running ∨
      ∃ e, r.status.error? = some e ∧ e.fault.nature = .stopIteration) := by
  have agrees := h.verdicts run r known
  have outcome : w.outcomeOf run = r.outcome := by
    rw [outcomeOf, known]
  rw [isWithdrawn, outcome] at own
  generalize w.settlement? r.outcome = settled at agrees own ⊢
  cases status : r.status with
  | running =>
    rw [status] at agrees
    rcases settled with _ | v | e | cause
    · simp [Status.error?]
    · exact agrees.elim
    · exact agrees.elim
    · cases own
  | resolved ms =>
    rw [status] at agrees
    rcases settled with _ | v | e | cause
    · exact agrees.elim
    · obtain rfl : v = .record run := by simpa [Agreement] using agrees
      simp [Status.error?]
    · simp [Agreement] at agrees
    · cases own
  | rejected ms e =>
    rw [status] at agrees
    rcases settled with _ | v | e' | cause
    · have nature : e.fault.nature = .stopIteration := agrees
      simp [Status.error?, nature]
    · simp [Agreement] at agrees
    · obtain ⟨rfl, nature⟩ : e' = e ∧ e.fault.nature ≠ .stopIteration := by
        simpa [Agreement] using agrees
      simp [Status.error?, nature]
    · cases own

/-- A plan whose only action raises a fault of some class. -/
def raising (name : String) : Plan where
  tree := Graph.compileItems [.leaf (.object 0 0) (.function {
    label := "a"
    signature := [⟨"args", .standard, false⟩, ⟨"store", .standard, false⟩]
    steps := [.raise name none] } {})]

theorem rejection_reaches_caller : ∃ w r e, Reachable (raising "ValueError") w ∧
    w.record? 0 = some r ∧ w.isWithdrawn 0 = false ∧ r.status.error? = some e ∧
    w.settlement? r.outcome = some (.failed e) := by
  let w := firstRun (raising "ValueError") 30
  have reached : Reachable (raising "ValueError") w := reachable_firstRun _ _
  have own : w.isWithdrawn 0 = false := by decide +kernel
  have rejected : (w.record? 0).any fun r =>
      r.status.error?.any fun e => e.fault.nature ≠ .stopIteration := by decide +kernel
  obtain ⟨r, known, some⟩ := (Option.any_eq_true _ _).mp rejected
  obtain ⟨e, error, other⟩ := (Option.any_eq_true _ _).mp some
  obtain ⟨-, failed, -⟩ := record_agrees_with_outcome reached known own
  exact ⟨w, r, e, reached, known, own, error, (failed e).mpr ⟨error, of_decide_eq_true other⟩⟩

/-- The end of an iteration, raised by an action, leaves a rejected record whose caller waits forever:
nothing is left to do or to wait for. -/
theorem stopIteration_stalls : ∃ w r, Reachable (raising "StopIteration") w ∧
    w.step (raising "StopIteration") = none ∧ w.record? 0 = some r ∧ r.status.error?.isSome ∧
    w.settlement? r.outcome = none := by
  let w := firstRun (raising "StopIteration") 30
  have done : (w.step (raising "StopIteration")).isNone := by decide +kernel
  have stalled : (w.record? 0).any fun r =>
      r.status.error?.isSome && (w.settlement? r.outcome).isNone := by decide +kernel
  obtain ⟨r, known, both⟩ := (Option.any_eq_true _ _).mp stalled
  obtain ⟨rejected, pending⟩ := Bool.and_eq_true_iff.mp both
  exact ⟨w, r, reachable_firstRun _ _, Option.isNone_iff_eq_none.mp done, known, rejected,
    Option.isNone_iff_eq_none.mp pending⟩

end Conductor.World
