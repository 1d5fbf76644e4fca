import Conductor.Proofs.Growth

/-!
# What the operations of a run do

The effects of resolving and rejecting a run, of calling an action, of merging a result, and of the
end of a body, each with the notes that it adds to the journal and the outcome that it leads to.
-/

namespace Conductor

def Rejections (run : RunId) (notes : List Note) : Prop :=
  ∀ n ∈ notes, ∃ ms e, n = (run, .settled (.rejected ms e))

theorem Rejections.nil (run : RunId) : Rejections run [] := by
  intro n member
  cases member

namespace World

variable {w w' : World} {plan : Plan} {run : RunId} {node : Node} {call : Call} {t : FutureId}
  {stack : List Frame} {e : Raised} {notes : List Note} {tasks : List (FutureId × Routine)}

inductive Rejecting (run : RunId) (e : Raised) (w : World) : Except Raised Bool × World → Prop where
  | unknown (missing : w.record? run = none) : Rejecting run e w (.ok false, w)
  | resolved {r : Record} {ms : Nat} (known : w.record? run = some r) (past : r.status = .resolved ms) :
      Rejecting run e w (.ok false, w)
  | again {r : Record} {ms : Nat} {error : Raised} (known : w.record? run = some r)
      (past : r.status = .rejected ms error) : Rejecting run e w (.ok (error.is e), w)
  | rejected {r : Record} {ms : Nat} {w' : World} {x : Except Raised Bool}
      (known : w.record? run = some r) (running : r.status = .running)
      (effect : Effect [(run, .settled (.rejected ms e))] [] w w')
      (status : w'.status run = .rejected ms e) (found : x ≠ .ok false)
      (proper : ∀ refusal, x = .error refusal → refusal.fault.nature ≠ .stopIteration)
      (taken : w.isPending r.outcome → e.fault.nature ≠ .stopIteration → x = .ok true) :
      Rejecting run e w (x, w')

/-- What comes of a failure of a run: an ordinary one rejects the run if it is still running, and any
other is handed on as it is. -/
structure Losing (run : RunId) (e : Raised) (notes : List Note) (w w' : World) (o : Outcome) : Prop where
  effect : Effect notes [] w w'
  only : Rejections run notes
  proper : o.Proper
  fatal : e.fault.isOrdinary = false → notes = [] ∧ o = .error e
  rejects : e.fault.isOrdinary → (w.record? run).isSome → w.isSettled run = false →
    ∃ ms, w'.status run = .rejected ms e
  /-- What goes on upwards is the very error that the run is rejected with, unless its outcome refuses that. -/
  kept : e.fault.nature = .ordinary → ∀ r, w.record? run = some r → (r.status = .running → w.isPending r.outcome) →
    ∀ x, o = .error x → x = e ∧ ∃ ms error, w'.status run = .rejected ms error ∧ error.is e

structure Catching (run : RunId) (e : Raised) (notes : List Note) (w w' : World) (o : Outcome) : Prop
    extends Losing run e notes w w' o where
  discards : ∀ v, o = .ok v → v = .nothing ∧ (∃ name, w'.logs.back? = some (.discardedFailure name e.fault)) ∧
    ∀ ms error, w'.status run = .rejected ms error → error.is e = false

/-! ### Settling a run -/

theorem post_log (loop : Nat) (j : Job) (x : LogEntry) :
    (w.log x).post loop j = (w.post loop j).log x := by
  have same : (w.log x).agenda.loop = w.agenda.loop := rfl
  unfold post
  rw [same]
  by_cases here : loop = w.agenda.loop
  · rw [if_pos here, if_pos here]
    rfl
  · rw [if_neg here, if_neg here]
    by_cases main : loop = 0
    · rw [if_pos main, if_pos main]
      rfl
    · rw [if_neg main, if_neg main]

theorem postAll_log (loop : Nat) (js : List Job) (x : LogEntry) :
    (w.log x).postAll loop js = (w.postAll loop js).log x := by
  induction js generalizing w with
  | nil => rfl
  | cons j js ih =>
    unfold postAll at ih ⊢
    rw [List.foldl_cons, List.foldl_cons, post_log]
    exact ih

theorem settle_log (f : FutureId) (s : Settlement) (x : LogEntry) :
    (w.log x).settle f s = (w.settle f s).log x := by
  have same : (w.log x).future? f = w.future? f := rfl
  unfold settle
  rw [same]
  cases w.future? f with
  | none => rfl
  | some future =>
    dsimp only
    by_cases past : future.settled.isSome
    · rw [if_pos past, if_pos past]
    · rw [if_neg past, if_neg past]
      have silenced : (w.log x).modifyFuture f (fun y => { y with settled := some s, callbacks := [] })
          = (w.modifyFuture f fun y => { y with settled := some s, callbacks := [] }).log x := rfl
      rw [silenced, postAll_log]

theorem failFuture_log {f : FutureId} {x : LogEntry} :
    (w.log x).failFuture f e = (w.failFuture f e).map (·.log x) := by
  have same : (w.log x).isPending f = w.isPending f := rfl
  unfold failFuture
  rw [same]
  split
  · rfl
  · split
    · rfl
    · rw [settle_log]
      rfl

theorem status_of_record {r : Record} (known : w.record? run = some r) : w.status run = r.status := by
  rw [status, known]

theorem status_setStatus {r : Record} (known : w.record? run = some r) (s : Status) :
    (w.setStatus run s).status run = s := by
  rw [status, record?_setStatus, if_pos rfl, known]
  rfl

theorem status_congr (records : w'.records = w.records) (run : RunId) :
    w'.status run = w.status run := by
  rw [status, status, record?_congr records]

theorem failFuture_error {f : FutureId} {fault : Fault} (h : w.failFuture f e = .error fault) :
    fault = .alreadySettled ∧ w.isPending f = false ∨
      fault = .stopIterationSet ∧ e.fault.nature = .stopIteration := by
  unfold failFuture at h
  split at h
  · rename_i past
    exact .inl ⟨(Except.error.inj h).symm, by simpa using past⟩
  · split at h
    · rename_i nature
      exact .inr ⟨(Except.error.inj h).symm, nature⟩
    · cases h

theorem reject_rejecting (plan : Plan) (run : RunId) (e : Raised) (w : World) :
    Rejecting run e w (w.reject plan run e) := by
  unfold World.reject
  split
  · rename_i missing
    exact .unknown missing
  · rename_i r known
    split
    · rename_i past
      exact .resolved known past
    · rename_i past
      exact .again known past
    · rename_i running
      generalize took : w.elapsed r.started = n
      have reached := status_setStatus known (.rejected n e)
      dsimp only
      -- the line of the log may as well be written last
      have last : (if plan.settings.logFailures then
            (w.setStatus run (.rejected n e)).log (.rejected e.fault)
          else w.setStatus run (.rejected n e)).failFuture r.outcome e
          = ((w.setStatus run (.rejected n e)).failFuture r.outcome e).map fun w =>
            if plan.settings.logFailures then w.log (.rejected e.fault) else w := by
        split
        · exact failFuture_log
        · cases (w.setStatus run (.rejected n e)).failFuture r.outcome e <;> rfl
      rw [last]
      cases tried : (w.setStatus run (.rejected n e)).failFuture r.outcome e with
      | ok w₁ =>
        obtain ⟨proper, rfl⟩ := failFuture_ok tried
        have concluded : Effect [(run, .settled (.rejected n e))] [] w
            ((w.setStatus run (.rejected n e)).settle r.outcome (.failed e)) :=
          .concluded known running ⟨rfl, proper⟩ took.symm
        have there := (status_congr (settle_sameRuns (w := w.setStatus run (.rejected n e))
          (f := r.outcome) (s := .failed e)).records run).trans reached
        dsimp only [Except.map]
        split
        · exact .rejected known running (concluded.trans (.log _)) there (by simp) (by simp) fun _ _ => rfl
        · exact .rejected known running concluded there (by simp) (by simp) fun _ _ => rfl
      | error f =>
        dsimp only [Except.map]
        have why : w.isPending r.outcome = false ∨
            ∃ ms e', Status.rejected n e = .rejected ms e' ∧ e'.fault.nature = .stopIteration := by
          rcases failFuture_error tried with ⟨-, past⟩ | ⟨-, nature⟩
          · exact .inl past
          · exact .inr ⟨n, e, rfl, nature⟩
        have refused : Effect [(run, .settled (.rejected n e))] [] w
            (w.setStatus run (.rejected n e)) := .kept (.refused known running rfl why took.symm)
        have proper : f.nature ≠ .stopIteration := by
          rcases failFuture_error tried with ⟨rfl, -⟩ | ⟨rfl, -⟩ <;> simp [Fault.nature]
        have refuses (x : Except Raised Bool) (pends : w.isPending r.outcome)
            (other : e.fault.nature ≠ .stopIteration) :
            x = .ok true := by
          rcases failFuture_error tried with ⟨-, past⟩ | ⟨-, nature⟩
          · cases (show w.isPending r.outcome = false from past).symm.trans pends
          · exact absurd nature other
        split
        · refine .rejected known running ((refused.trans (.log _)).trans (.raise f)) reached (by simp) ?_ (refuses _)
          intro refusal same
          obtain rfl := Except.error.inj same
          exact proper
        · refine .rejected known running (refused.trans (.raise f)) reached (by simp) ?_ (refuses _)
          intro refusal same
          obtain rfl := Except.error.inj same
          exact proper

theorem Rejecting.effect {x : Except Raised Bool} (h : Rejecting run e w (x, w')) :
    ∃ notes, Effect notes [] w w' ∧ Rejections run notes := by
  cases h with
  | unknown _ => exact ⟨[], .refl w, .nil run⟩
  | resolved _ _ => exact ⟨[], .refl w, .nil run⟩
  | again _ _ => exact ⟨[], .refl w, .nil run⟩
  | rejected _ _ effect _ _ _ =>
    refine ⟨_, effect, fun n member => ?_⟩
    exact ⟨_, e, List.mem_singleton.mp member⟩

theorem Rejecting.refusal {refusal : Raised} (h : Rejecting run e w (.error refusal, w')) :
    refusal.fault.nature ≠ .stopIteration := by
  generalize same : (Except.error refusal : Except Raised Bool) = x at h
  cases h with
  | rejected _ _ _ _ _ proper => exact proper refusal same.symm
  | unknown _ => cases same
  | resolved _ _ => cases same
  | again _ _ => cases same

theorem resolve_effect (run : RunId) :
    ∃ notes, Effect notes [] w (w.resolve run).2 ∧
      ∀ n ∈ notes, ∃ ms, n = (run, .settled (.resolved ms)) := by
  unfold World.resolve
  split
  · exact ⟨[], .refl w, by simp⟩
  · rename_i r known
    split
    · exact ⟨[], .refl w, by simp⟩
    · rename_i pending
      have running : r.status = .running := by
        cases status : r.status <;> simp_all [Status.isSettled]
      generalize took : w.elapsed r.started = ms
      have pends : ((w.setStatus run (.resolved ms)).log (.resolved ms)).isPending r.outcome
          = w.isPending r.outcome := rfl
      dsimp only
      rw [pends, settle_log]
      split
      · have concluded : Effect [(run, .settled (.resolved ms))] [] w
            ((w.setStatus run (.resolved ms)).settle r.outcome (.value (.record run))) :=
          .concluded known running rfl took.symm
        exact ⟨_, concluded.trans (.log _), by simp⟩
      · rename_i past
        have refused : Effect [(run, .settled (.resolved ms))] [] w
            (w.setStatus run (.resolved ms)) :=
          .kept (.refused known running rfl (.inl (by simpa using past)) took.symm)
        exact ⟨_, refused.trans (.log _), by simp⟩

theorem resolve_nature {f : Fault} (failed : w.resolve run = (.error f, w')) :
    f.nature ≠ .stopIteration := by
  unfold resolve at failed
  split at failed
  · cases failed
  · split at failed
    · cases failed
    · dsimp only at failed
      split at failed
      · cases failed
      · obtain rfl := Except.error.inj (Prod.mk.inj failed).1
        exact (by decide)

theorem status_setStatus_other {other : RunId} (different : other ≠ run) (s : Status) :
    (w.setStatus run s).status other = w.status other := by
  rw [status, record?_setStatus, if_neg different]
  rfl

theorem Effect.status (h : Effect notes tasks w w') (run : RunId) :
    w'.status run = w.status run ∨ w.status run = .running ∧ w'.status run ≠ .running ∧
      (run, .settled (w'.status run)) ∈ notes := by
  have settling {w : World} {other : RunId} {r : Record} {s : Status}
      (known : w.record? other = some r) (running : r.status = .running) (past : s.isSettled) :
      (w.setStatus other s).status run = w.status run ∨ w.status run = .running ∧
        (w.setStatus other s).status run ≠ .running ∧
          (run, .settled ((w.setStatus other s).status run)) ∈ [(other, Happening.settled s)] := by
    by_cases same : run = other
    · subst same
      right
      rw [status_setStatus known, status_of_record known]
      refine ⟨running, ?_, by simp⟩
      rintro rfl
      cases past
    · exact .inl (status_setStatus_other same s)
  induction h with
  | kept d =>
    cases d with
    | noted _ => exact .inl rfl
    | refused known running past _ => exact settling known running past
    | marked _ => exact .inl rfl
  | scripted h => exact .inl (status_congr h.sameRuns.records run)
  | described d => exact .inl (status_congr (newCompletion_records d) run)
  | @recorded w r own running =>
    left
    simp only [World.status, record?, addRecord, newFuture, Array.getElem?_push]
    by_cases new : run = w.records.size
    · rw [if_pos new, new, Array.getElem?_size]
      exact running
    · rw [if_neg new]
  | tasked r _ => exact .inl (status_congr (newTask_sameRuns r).records run)
  | watched _ _ _ _ _ => exact .inl (status_congr onSettled_sameRuns.records run)
  | joined _ _ => exact .inl (status_congr (newJoint_sameRuns _).records run)
  | waited _ => exact .inl (status_congr onSettled_sameRuns.records run)
  | concluded known running verdict =>
    rw [status_congr settle_sameRuns.records]
    exact settling known running verdict.isSettled
  | failed _ _ _ _ => exact .inl (status_congr settle_sameRuns.records run)
  | trans _ _ ih ih' =>
    rcases ih' with same' | ⟨before', after', member'⟩
    · rw [same']
      rcases ih with same | ⟨before, after, member⟩
      · exact .inl same
      · exact .inr ⟨before, after, List.mem_append_right _ member⟩
    · rcases ih with same | ⟨-, after, -⟩
      · exact .inr ⟨same ▸ before', after', List.mem_append_left _ member'⟩
      · exact absurd before' after

theorem isSettled_of_status (same : w'.status run = w.status run) :
    w'.isSettled run = w.isSettled run := by
  rw [isSettled, isSettled, same]

/-! ### Failures of nodes -/

theorem leaving_effect (e : Raised) : Effect [] [] w (w.leaving e).2 := by
  unfold World.leaving
  split
  · exact .raise .stopIterationLeft
  · exact .refl w

theorem leaving_error (e : Raised) :
    ∃ e', (w.leaving e).1 = .error e' ∧ e'.fault.nature ≠ .stopIteration := by
  unfold leaving
  split
  · exact ⟨_, rfl, by simp [raise, Fault.nature]⟩
  · rename_i other
    exact ⟨e, rfl, other⟩

theorem nature_of_not_ordinary {f : Fault} (h : (!f.isOrdinary) = true) :
    f.nature ≠ .stopIteration := by
  intro same
  simp [Fault.isOrdinary, same] at h

theorem proper_ok (v : Yield) : Outcome.Proper (.ok v) := fun _ same => nomatch same

theorem proper_error {e : Raised} (h : e.fault.nature ≠ .stopIteration) :
    Outcome.Proper (.error e) := fun _ same => Except.error.inj same ▸ h

theorem leaving_proper (e : Raised) : Outcome.Proper (w.leaving e).1 := by
  obtain ⟨e', same, proper⟩ := leaving_error (w := w) e
  rw [same]
  exact proper_error proper

theorem leaving_of_ordinary (nature : e.fault.nature = .ordinary) : w.leaving e = (.error e, w) := by
  simp [leaving, nature]

theorem isOrdinary_of_nature {f : Fault} (nature : f.nature = .ordinary) : f.isOrdinary := by
  simp [Fault.isOrdinary, nature]

theorem Losing.fatally (fatal : (!e.fault.isOrdinary) = true) : Losing run e [] w w (.error e) where
  effect := .refl w
  only := .nil run
  proper := proper_error (nature_of_not_ordinary fatal)
  fatal _ := ⟨rfl, rfl⟩
  rejects ordinary := by simp [ordinary] at fatal
  kept nature := by simp [isOrdinary_of_nature nature] at fatal

/-- Whoever tries to reject a running run finds it rejected with the failure. -/
theorem Rejecting.rejects {x : Except Raised Bool} (h : Rejecting run e w (x, w'))
    (known : (w.record? run).isSome) (running : w.isSettled run = false) :
    ∃ ms, w'.status run = .rejected ms e := by
  cases h with
  | unknown missing => simp [missing] at known
  | resolved known past => simp [isSettled, status_of_record known, past, Status.isSettled] at running
  | again known past => simp [isSettled, status_of_record known, past, Status.isSettled] at running
  | rejected _ _ _ status _ _ => exact ⟨_, status⟩

/-- Whoever tries to reject a run with an ordinary failure is told whether it is rejected with that very one, unless
its outcome refuses it. -/
theorem Rejecting.tells {x : Except Raised Bool} {r : Record} (h : Rejecting run e w (x, w'))
    (nature : e.fault.nature = .ordinary) (known : w.record? run = some r)
    (pends : r.status = .running → w.isPending r.outcome) :
    ∃ b, x = .ok b ∧ (b ↔ ∃ ms error, w'.status run = .rejected ms error ∧ error.is e) := by
  cases h with
  | unknown missing => cases missing.symm.trans known
  | resolved known' past =>
    refine ⟨false, rfl, by simp, ?_⟩
    rintro ⟨ms, error, rejected, -⟩
    rw [status_of_record known', past] at rejected
    cases rejected
  | @again r' ms error known' past =>
    refine ⟨_, rfl, fun same => ⟨ms, error, (status_of_record known').trans past, same⟩, ?_⟩
    rintro ⟨ms', error', rejected, same⟩
    rw [status_of_record known', past] at rejected
    obtain ⟨-, rfl⟩ := Status.rejected.inj rejected
    exact same
  | @rejected r' ms _ _ known' running effect status found proper taken =>
    obtain rfl := Option.some.inj (known'.symm.trans known)
    have own : e.is e := by simp [Raised.is]
    exact ⟨true, taken (pends running) (by simp [nature]), fun _ => ⟨ms, e, status, own⟩, fun _ => rfl⟩

/-- Whoever is told that a run is not rejected with a failure finds it so. -/
theorem Rejecting.denied {ms : Nat} {error : Raised} (h : Rejecting run e w (.ok false, w'))
    (rejected : w'.status run = .rejected ms error) : error.is e = false := by
  generalize told : (Except.ok false : Except Raised Bool) = x at h
  cases h with
  | unknown missing =>
    rw [status, missing] at rejected
    cases rejected
  | resolved known past =>
    rw [status_of_record known, past] at rejected
    cases rejected
  | again known past =>
    rw [status_of_record known, past] at rejected
    obtain ⟨-, rfl⟩ := Status.rejected.inj rejected
    exact (Except.ok.inj told).symm
  | rejected _ _ _ _ found _ _ => exact absurd told.symm found

theorem Rejecting.losing {x : Except Raised Bool} {w₁ : World} {o : Outcome}
    (h : Rejecting run e w (x, w₁)) (ordinary : ¬ (!e.fault.isOrdinary) = true)
    (after : Effect [] [] w₁ w') (proper : o.Proper)
    (kept : e.fault.nature = .ordinary → (w.record? run).isSome → ∀ b, x = .ok b → ∀ y, o = .error y →
      y = e ∧ b = true) :
    ∃ notes, Losing run e notes w w' o := by
  obtain ⟨notes, effect, only⟩ := h.effect
  have status : w'.status run = w₁.status run := by
    rcases after.status run with same | ⟨-, -, member⟩
    · exact same
    · cases member
  refine ⟨notes, effect.trans after, only, proper, ?_, fun _ known running => ?_, fun nature r known pends y same => ?_⟩
  · intro fatal
    simp [fatal] at ordinary
  · obtain ⟨ms, rejected⟩ := h.rejects known running
    exact ⟨ms, status.trans rejected⟩
  · obtain ⟨b, rfl, told⟩ := h.tells nature known pends
    obtain ⟨rfl, own⟩ := kept nature (by rw [known]; rfl) b rfl y same
    rw [status]
    exact ⟨rfl, told.mp own⟩

theorem handleFailure_catching (plan : Plan) (run : RunId) (node : Node) (e : Raised) (w : World) :
    ∃ notes, Catching run e notes w (w.handleFailure plan run node e).2
      (w.handleFailure plan run node e).1 := by
  unfold handleFailure
  split
  · rename_i fatal
    exact ⟨[], .fatally fatal, by simp⟩
  · rename_i ordinary
    have tried := reject_rejecting plan run e w
    split <;> rename_i same <;> rw [same] at tried
    · obtain ⟨notes, losing⟩ := tried.losing ordinary (.refl _) (proper_error tried.refusal) (by simp)
      exact ⟨notes, losing, by simp⟩
    · rename_i w₁
      have handed (nature : e.fault.nature = .ordinary) : (w₁.leaving e).1 = .error e := by
        rw [leaving_of_ordinary nature]
      obtain ⟨notes, losing⟩ := tried.losing ordinary (leaving_effect e) (leaving_proper e)
        fun nature _ b own y same =>
          ⟨(Except.error.inj ((handed nature).symm.trans same)).symm, (Except.ok.inj own).symm⟩
      obtain ⟨e', failed, -⟩ := leaving_error (w := w₁) e
      exact ⟨notes, losing, fun v same => by cases failed.symm.trans same⟩
    · rename_i w₁
      obtain ⟨notes, losing⟩ := tried.losing ordinary (.log (.discardedFailure node.name e.fault)) (proper_ok .nothing)
        (by simp)
      refine ⟨notes, losing, fun v same => ⟨(Except.ok.inj same).symm, ⟨node.name, by simp [World.log]⟩, ?_⟩⟩
      intro ms error rejected
      exact tried.denied rejected

/-- A member that fails to be called while its run is running rejects the run. -/
theorem failDispatch_catching (plan : Plan) (run : RunId) (e : Raised) (w : World)
    (running : w.isSettled run = false) :
    ∃ notes, Catching run e notes w (w.failDispatch plan run e).2 (w.failDispatch plan run e).1 := by
  unfold failDispatch
  split
  · rename_i fatal
    exact ⟨[], .fatally fatal, by simp⟩
  · rename_i ordinary
    have tried := reject_rejecting plan run e w
    split <;> rename_i same <;> rw [same] at tried
    · obtain ⟨notes, losing⟩ := tried.losing ordinary (.refl _) (proper_error tried.refusal) (by simp)
      exact ⟨notes, losing, by simp⟩
    · rename_i b w₁
      have handed (nature : e.fault.nature = .ordinary) : (w₁.leaving e).1 = .error e := by
        rw [leaving_of_ordinary nature]
      have first (known : (w.record? run).isSome) : b = true := by
        cases b with
        | true => rfl
        | false =>
          obtain ⟨ms, rejected⟩ := tried.rejects known running
          simpa [Raised.is] using tried.denied rejected
      obtain ⟨notes, losing⟩ := tried.losing ordinary (leaving_effect e) (leaving_proper e)
        fun nature known b' own y same => ⟨(Except.error.inj ((handed nature).symm.trans same)).symm,
          (Except.ok.inj own).symm.trans (first known)⟩
      obtain ⟨e', failed, -⟩ := leaving_error (w := w₁) e
      exact ⟨notes, losing, fun v same => by cases failed.symm.trans same⟩

/-! ### Calls of nodes -/

theorem modifyNode_effect (node : Node) (change : NodeState → NodeState) :
    Effect [] [] w (w.modifyNode node change) := .kept (.marked _)

theorem beginNode_effect (plan : Plan) (run : RunId) (node : Node) :
    Effect [] [] w (w.beginNode plan run node) := by
  unfold beginNode
  dsimp only
  split
  · exact (Effect.kept (.marked _)).trans (.log _)
  · exact .kept (.marked _)

theorem beginNode_records : (w.beginNode plan run node).records = w.records := by
  unfold beginNode
  dsimp only
  split <;> rfl

theorem merge_mergeable {h h' : Heap} {target : DictRef} {v : Value}
    (merged : h.merge target v = .ok h') : v.isMergeable := by
  unfold Heap.merge at merged
  split at merged
  · rfl
  · split at merged
    · rename_i entries found
      unfold Heap.mapping? at found
      split at found
      · rfl
      · rfl
      · cases found
    · cases merged

theorem complete_effect {r : Result} {started : Nat} (fresh : w.isSettled run = false)
    (h : w.complete plan run node r started = .ok w') :
    ∃ payload, Effect [(run, .completed node.head r payload)] [] w w' := by
  unfold complete at h
  split at h
  · cases h
  · rename_i heap merged
    obtain rfl := Except.ok.inj h
    refine ⟨(w.heap.mapping? r.payload).getD [], ?_⟩
    have noted : Effect [(run, .completed node.head r ((w.heap.mapping? r.payload).getD []))] [] w
        (w.note run (.completed node.head r ((w.heap.mapping? r.payload).getD []))) :=
      .note ⟨fresh, merge_mergeable merged⟩
    have stored := noted.trans (.heap (Nat.le_of_eq (Heap.merge_size merged).symm))
    split
    · exact (stored.trans (modifyNode_effect _ _)).trans (.log _)
    · exact stored.trans (modifyNode_effect _ _)

theorem completeReport_ok {x : Reported} {r : Result}
    (h : w.completeReport plan run call x = .ok (r, w')) :
    w.resultOf "payload" x = .ok r ∧ w.complete plan run call.node r call.started = .ok w' := by
  obtain ⟨r', found, h⟩ := bind_ok h
  obtain ⟨w₁, done, h⟩ := bind_ok h
  obtain ⟨rfl, rfl⟩ := Prod.mk.inj (Except.ok.inj h)
  exact ⟨found, done⟩

theorem collectReport_effect (c : CompletionId) : Effect [] [] w (w.collectReport c).2 := by
  unfold collectReport
  split
  · exact .refl w
  · exact .scripted (scripted_collect c)

theorem collectReport_records (c : CompletionId) : (w.collectReport c).2.records = w.records := by
  unfold collectReport
  split
  · rfl
  · exact (scripted_collect c).sameRuns.records

theorem callAction_invoked (plan : Plan) (run : RunId) (node : Node) (completion : Value)
    (explicit : Bool) :
    Invoked (w.note run (.called node.head (w.heap.dict (w.argsOf run))))
      (w.callAction plan run node completion explicit) :=
  invoked _ _

theorem callAction_effect (plan : Plan) (node : Node) (completion : Value) (explicit : Bool)
    (fresh : w.isSettled run = false) :
    Effect [(run, .called node.head (w.heap.dict (w.argsOf run)))] [] w
      (w.callAction plan run node completion explicit).2 :=
  have noted : Effect [(run, .called node.head (w.heap.dict (w.argsOf run)))] [] w
      (w.note run (.called node.head (w.heap.dict (w.argsOf run)))) := .note fresh
  noted.trans (.scripted (callAction_invoked plan run node completion explicit).scripted)

def Sourced (w : World) : Prop := ∀ j ∈ w.jobs, ∀ f, j.source? = some f → f < w.futures.size

theorem Sourced.scripted (sources : w.Sourced) (h : Scripted w w') : w'.Sourced := by
  intro j member f waits
  rcases h.jobs j member with old | free
  · exact Nat.lt_of_lt_of_le (sources j old f waits) h.size_le
  · rw [free] at waits
    cases waits

theorem Sourced.newCompletion (sources : w.Sourced) (d : Descriptor) : (w.newCompletion d).2.Sourced := by
  intro j member f waits
  rw [newCompletion_jobs] at member
  exact Nat.lt_of_lt_of_le (sources j member f waits) (newCompletion_size d)

theorem Sourced.beginNode (sources : w.Sourced) (plan : Plan) (run : RunId) (node : Node) :
    (w.beginNode plan run node).Sourced := by
  have loop := beginNode_loop (w := w) plan run node
  intro j member f waits
  rw [jobs_congr loop.futures loop.agenda] at member
  rw [loop.futures]
  exact sources j member f waits

theorem callAction_fresh {completion : Value} {explicit : Bool} {f : FutureId}
    (sources : w.Sourced)
    (called : w.callAction plan run node completion explicit = (.ok (.future f), w')) :
    w.futures.size ≤ f ∧ f < w'.futures.size ∧ ∀ j ∈ w'.jobs, j.source? ≠ some f := by
  have done := callAction_invoked (w := w) plan run node completion explicit
  rw [called] at done
  obtain ⟨fresh, own⟩ := done.fresh f rfl
  refine ⟨fresh, purpose?_lt own, fun j member waits => ?_⟩
  rcases done.scripted.jobs j member with old | free
  · exact Nat.not_lt.mpr fresh (sources j old f waits)
  · simp [free] at waits

/-! ### Members of groups -/

theorem newTask_unseen (sources : w.Sourced) (r : Routine) :
    ∀ j ∈ (w.newTask r).2.jobs, j.source? ≠ some w.futures.size := by
  intro j member waits
  rcases List.mem_cons.mp ((jobs_newTask r).subset member) with rfl | old
  · cases waits
  · exact Nat.lt_irrefl _ (sources j old _ waits)

theorem chainMember_effect (run : RunId) (call : Call) (explicit : Bool) {body : FutureId}
    (unseen : ∀ j ∈ w.jobs, j.source? ≠ some body) :
    Effect [(run, .began call.node.head (some body))]
      [((w.chainMember run call explicit body).1, .member run call (some body))] w
      (w.chainMember run call explicit body).2 :=
  (Effect.watched run call.node call.completion explicit unseen).trans (.tasked _ rfl)

theorem newCompletion_report (plan : Plan) (node : Node) :
    (w.newCompletion (descriptor plan node .concurrent)).2.first?
      (w.newCompletion (descriptor plan node .concurrent)).1 = some w.futures.size := by
  simp [newCompletion, descriptor, first?, completion?, addCompletion, newFuture, Completion.future?]

/-! ### The end of a body -/

/-- A descriptor whose future has failed, so that nobody gets a report of it. -/
def Doomed (w : World) (c : CompletionId) (e : Raised) : Prop :=
  ∃ f, w.first? c = some f ∧ w.settlement? f = some (.failed e)

theorem delegate_rebound {d : Descriptor} {name : String} {f : Fault}
    (own : name ∈ ["_is_done", "_future", "_fail"]) (failed : d.delegate name = .error f) :
    d.isRebound := by
  unfold Descriptor.delegate at failed
  split at failed
  · rename_i v found
    exact List.any_eq_true.mpr ⟨name, own, by rw [found]; rfl⟩
  · cases failed

theorem futureOf_ok {d : Descriptor} {f g : FutureId} {method : String}
    (found : futureOf d f method = .ok g) : g = f := by
  unfold futureOf at found
  split at found
  · cases found
  · exact (Except.ok.inj found).symm
  · cases found

theorem futureOf_rebound {d : Descriptor} {f : FutureId} {method : String} {fault : Fault}
    (failed : futureOf d f method = .error fault) : d.isRebound := by
  have written : (d.written.lookup "_future").isSome := by
    unfold futureOf at failed
    split at failed
    · rename_i found
      unfold Descriptor.book at found
      split at found
      · cases found
      · rename_i gone
        rw [gone]
        rfl
      · cases found
    · cases failed
    · rename_i v found
      unfold Descriptor.book at found
      split at found
      · rename_i there
        rw [there]
        rfl
      · cases found
      · cases found
  exact List.any_eq_true.mpr ⟨"_future", by simp, written⟩

variable {c : CompletionId} {f : FutureId} {x : Completion}

theorem bodyCompleted_error {fault : Fault} (known : w.completion? c = some x)
    (failed : w.bodyCompleted c = .error fault) : x.descriptor.isRebound := by
  obtain ⟨d, recorded⟩ := x
  unfold bodyCompleted at failed
  split at failed
  · rename_i other
    rw [delegate, known] at other
    exact delegate_rebound (by simp) other
  · rw [isDone, known] at failed
    cases recorded with
    | first f =>
      dsimp only at failed
      cases place : futureOf d f "done" with
      | error fault' => exact futureOf_rebound place
      | ok g =>
        rw [place] at failed
        cases failed
    | nothing => cases failed
    | latest _ _ => cases failed

theorem failBody_ok (failed : w.failBody c e = .ok w') :
    Effect [] [] w w' ∧ ∀ f, w.first? c = some f → w.isPending f → w' = w.settle f (.failed e) := by
  unfold failBody at failed
  split at failed
  · cases failed
  · unfold failCompletion at failed
    split at failed
    · rename_i d f known
      have first : w.first? c = some f := first?_of_known known rfl
      split at failed
      · cases failed
      · rename_i g place
        obtain rfl := futureOf_ok place
        split at failed
        · obtain ⟨proper, rfl⟩ := failFuture_ok failed
          refine ⟨.failed known rfl e proper, fun g' first' _ => ?_⟩
          obtain rfl := Option.some.inj (first.symm.trans first')
          rfl
        · rename_i past
          refine ⟨Except.ok.inj failed ▸ .refl w, fun g' first' pending => ?_⟩
          obtain rfl := Option.some.inj (first.symm.trans first')
          exact absurd pending past
    · rename_i other
      refine ⟨Except.ok.inj failed ▸ .refl w, fun f first _ => ?_⟩
      obtain ⟨⟨d, recorded⟩, known, own⟩ := Option.bind_eq_some_iff.mp first
      cases recorded with
      | first g => exact absurd known (other d g)
      | nothing => cases own
      | latest _ _ => cases own

theorem failBody_error {fault : Fault} (known : w.completion? c = some x)
    (proper : e.fault.nature ≠ .stopIteration) (failed : w.failBody c e = .error fault) :
    x.descriptor.isRebound := by
  unfold failBody at failed
  split at failed
  · rename_i other
    rw [delegate, known] at other
    exact delegate_rebound (by simp) other
  · unfold failCompletion at failed
    split at failed
    · rename_i d f known'
      obtain rfl := Option.some.inj (known.symm.trans known')
      split at failed
      · rename_i place
        exact futureOf_rebound place
      · split at failed
        · rename_i g place pending
          rcases failFuture_error failed with ⟨-, past⟩ | ⟨-, nature⟩
          · rw [past] at pending
            cases pending
          · exact absurd nature proper
        · cases failed
    · cases failed

theorem bodyCompleted_ok {done : Bool} (report : w.first? c = some f)
    (answer : w.bodyCompleted c = .ok done) : w.isPending f = !done := by
  obtain ⟨⟨d, recorded⟩, known, own⟩ := Option.bind_eq_some_iff.mp report
  unfold bodyCompleted at answer
  split at answer
  · cases answer
  · rw [isDone, known] at answer
    cases recorded with
    | first g =>
      obtain rfl : g = f := by simpa [Completion.future?] using own
      dsimp only at answer
      cases place : futureOf d g "done" with
      | error fault =>
        rw [place] at answer
        cases answer
      | ok g' =>
        rw [place, futureOf_ok place] at answer
        rw [← Except.ok.inj answer, Bool.not_not]
    | nothing => cases own
    | latest _ _ => cases own

theorem settlement?_settle_pending {s : Settlement} (pending : w.isPending f) :
    (w.settle f s).settlement? f = some s := by
  unfold isPending at pending
  split at pending
  · rename_i y found
    rw [settlement?_settle_self found, Option.isNone_iff_eq_none.mp pending]
    rfl
  · cases pending

/-- What the end of a body leads to: nothing if it has not failed; otherwise the failure settles the
run, fails the descriptor, or is noted as unheard. -/
inductive BodyEnds (run : RunId) (h : Head) (c : CompletionId) (body : FutureId) (w : World) :
    List Note → World → Prop where
  | quiet {w' : World} (effect : Effect [] [] w w') (other : ∀ e, w.settlement? body ≠ some (.failed e))
      (fails : ∀ cause f, w.settlement? body = some (.cancelled cause) → w.first? c = some f →
        w.isPending f → (∃ x, w.completion? c = some x ∧ x.descriptor.isRebound) ∨
          ∃ e, e.fault = .bodyCancelled ∧ w'.settlement? f = some (.failed e)) :
      BodyEnds run h c body w [] w'
  | doomed {w' : World} {e : Raised} (failed : w.settlement? body = some (.failed e))
      (effect : Effect [] [] w w') (doomed : ∀ f, w.first? c = some f → Doomed w' c e) :
      BodyEnds run h c body w [] w'
  | unheard {w' : World} {e : Raised} {d : Descriptor} (failed : w.settlement? body = some (.failed e))
      (effect : Effect [(run, .unheard h e d)] [] w w') :
      BodyEnds run h c body w [(run, .unheard h e d)] w'
  | rejecting {w' : World} {rejections : List Note} {e : Raised}
      (failed : w.settlement? body = some (.failed e)) (only : Rejections run rejections)
      (effect : Effect (rejections ++ [(run, .failed h e)]) [] w w')
      (rejects : (w.record? run).isSome → w.isSettled run = false →
        ∃ ms, w'.status run = .rejected ms e)
      (completed : w.bodyCompleted c = .ok true) :
      BodyEnds run h c body w (rejections ++ [(run, .failed h e)]) w'

theorem BodyEnds.effect {h : Head} {body : FutureId} (ends : BodyEnds run h c body w notes w') :
    Effect notes [] w w' := by
  cases ends with
  | quiet effect _ => exact effect
  | doomed _ effect _ => exact effect
  | unheard _ effect => exact effect
  | rejecting _ _ effect _ => exact effect

theorem unheard_ends {body : FutureId} {fault : Fault}
    (rebound : ∀ x, w.completion? c = some x → x.descriptor.isRebound)
    (failed : w.settlement? body = some (.failed e)) :
    ∃ notes, BodyEnds run node.head c body w notes ((w.noteUnheard run node c e).emitStray fault) := by
  unfold noteUnheard
  split
  · rename_i x known
    have noted : Effect [(run, .unheard node.head e x.descriptor)] [] w
        (w.note run (.unheard node.head e x.descriptor)) := .note (rebound x known)
    exact ⟨_, .unheard failed (noted.trans (.emitStray fault))⟩
  · rename_i missing
    refine ⟨_, .doomed failed (.emitStray fault) fun f report => ?_⟩
    rw [first?, missing] at report
    cases report

/-- What follows on the rejection of a run by the late failure of a body is only logged or seen outside. -/
theorem bodyEnded_late (plan : Plan) (run : RunId) (node : Node) (explicit : Bool) {body : FutureId}
    (failed : w.settlement? body = some (.failed e)) (completed : w.bodyCompleted c = .ok true) :
    Scripted ((w.note run (.failed node.head e)).reject plan run e).2
      (w.bodyEnded plan run node c explicit body) := by
  simp only [bodyEnded, failed, completed]
  generalize (w.note run (.failed node.head e)).reject plan run e = r
  obtain ⟨x, w₁⟩ := r
  cases x with
  | error refusal => exact scripted_emit _ _
  | ok same =>
    cases same with
    | true => exact .refl w₁
    | false => exact scripted_log _

theorem bodyEnded_ends (plan : Plan) (run : RunId) (node : Node) (c : CompletionId) (explicit : Bool)
    (body : FutureId)
    (proper : ∀ e, w.settlement? body = some (.failed e) → e.fault.nature ≠ .stopIteration) :
    ∃ notes, BodyEnds run node.head c body w notes (w.bodyEnded plan run node c explicit body) := by
  unfold bodyEnded
  split
  · rename_i cause settled
    have other : ∀ e, w.settlement? body ≠ some (.failed e) := by simp [settled]
    dsimp only
    split
    · rename_i w₁ ok
      obtain ⟨effect, settles⟩ := failBody_ok ok
      refine ⟨_, .quiet ((Effect.raise _).trans effect) other fun _ f _ report pending =>
        .inr ⟨(w.raise .bodyCancelled).1, rfl, ?_⟩⟩
      rw [settles f report pending]
      exact settlement?_settle_pending (w := (w.raise .bodyCancelled).2) pending
    · rename_i fault failed
      refine ⟨_, .quiet ((Effect.raise _).trans (.emitStray fault)) other fun _ f _ report _ => .inl ?_⟩
      obtain ⟨x, known, -⟩ := Option.bind_eq_some_iff.mp report
      have ordinary : Fault.bodyCancelled.nature ≠ .stopIteration := by decide
      exact ⟨x, known, failBody_error (w := (w.raise .bodyCancelled).2) known ordinary failed⟩
  · rename_i e settled
    split
    · rename_i failed
      exact unheard_ends (fun x known => bodyCompleted_error known failed) settled
    · -- the completion has been reported: the failure rejects the run
      rename_i answer
      have tried := reject_rejecting plan run e (w.note run (.failed node.head e))
      have noted : Effect [(run, .failed node.head e)] [] w (w.note run (.failed node.head e)) :=
        .note trivial
      have late := bodyEnded_late plan run node explicit settled answer
      simp only [bodyEnded, settled, answer] at late
      obtain ⟨notes, effect, only⟩ := tried.effect
      refine ⟨_, .rejecting settled only ((noted.trans effect).trans (.scripted late)) (fun known running => ?_) answer⟩
      obtain ⟨ms, rejected⟩ := tried.rejects known running
      exact ⟨ms, (status_congr late.sameRuns.records run).trans rejected⟩
    · rename_i still
      split
      · rename_i w₁ ok
        obtain ⟨effect, settles⟩ := failBody_ok ok
        refine ⟨_, .doomed settled effect fun f report => ?_⟩
        have pending := bodyCompleted_ok report still
        obtain rfl := settles f report pending
        exact ⟨f, Grown.settle.firsts c f report, settlement?_settle_pending pending⟩
      · rename_i failed
        exact unheard_ends (fun x known => failBody_error known (proper e settled) failed) settled
  · rename_i v settled
    have other : ∀ e, w.settlement? body ≠ some (.failed e) := by simp [settled]
    have ended : ∀ cause, w.settlement? body ≠ some (.cancelled cause) := by simp [settled]
    have recorded := Effect.record (w := w) c (.result {})
    split
    · exact ⟨_, .quiet (.refl w) other fun cause _ there => absurd there (ended cause)⟩
    · split
      · rename_i same
        rw [same] at recorded
        exact ⟨_, .quiet recorded other fun cause _ there => absurd there (ended cause)⟩
      · rename_i fault w₁ same
        rw [same] at recorded
        exact ⟨_, .quiet (recorded.trans (.emitStray fault)) other fun cause _ there => absurd there (ended cause)⟩
  · rename_i pending
    exact ⟨_, .quiet (.refl w) (by simp [pending]) (by simp [pending])⟩

/-! ### New runs -/

theorem startRun_effect (args : Entries) :
    Effect [] [(w.futures.size + 1, .drive w.records.size)] w (w.startRun args).2 := by
  have made : Effect [] [] w { w with heap := (w.heap.newDict args).2 } :=
    .heap (by simp [Heap.newDict])
  have opened := (made.trans (.recorded ⟨(w.heap.newDict args).1, .running, w.clock, w.futures.size⟩
    rfl rfl)).trans (.log .started)
  have driven := opened.trans (.tasked (.drive w.records.size) rfl)
  have size : (w.futures.push { loop := w.agenda.loop, purpose := .plain (.outcome w.records.size) }).size
      = w.futures.size + 1 := Array.size_push _
  rw [← size]
  exact driven

end World

end Conductor
