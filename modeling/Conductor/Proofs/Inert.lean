import Conductor.Proofs.Sound

/-!
# Runs that have settled

Nothing that is under way when a run settles is cancelled: chains, bodies and callbacks go on. But a
settled run keeps its record as it is, calls no more actions and merges no more payloads, and its
executor leaves the nodes and the heap alone.
-/

namespace Conductor

/-- Whether something may still happen to a run that has settled. -/
def Happening.isAftermath : Happening → Bool
  | .called _ _ | .spawned _ | .completed _ _ _ | .settled _ => false
  | _ => true

namespace World

/-- The run whose executor makes the next step, if that is no step of a body, a callback or the
loop. -/
def actor? (w : World) : Option RunId :=
  match w.focus with
  | .enter _ r _ => r.run?
  | .leave _ _ (frame :: _) => frame.run?
  | .leave _ _ [] => none
  | .idle =>
    match w.nextJob? with
    | some (.bodyEnded run _ _ _ _, _) => some run
    | _ => none

/-- Whether nodes and values stay as they are. -/
structure Untouched (w w' : World) : Prop where
  nodes : w'.nodes = w.nodes
  heap : w'.heap = w.heap

variable {w w' : World} {f : FutureId} {s : Settlement} {j : Job} {notes : List Note}
  {tasks : List (FutureId × Routine)} {plan : Plan} {run : RunId} {e : Raised} {t : FutureId}
  {stack : List Frame} {node : Node} {call : Call} {c : CompletionId}

/-! ### Records of settled runs -/

theorem record?_isSome (past : w.isSettled run) : ∃ r, w.record? run = some r ∧ r.status.isSettled := by
  unfold isSettled status at past
  cases known : w.record? run with
  | none =>
    rw [known] at past
    cases past
  | some r =>
    rw [known] at past
    exact ⟨r, rfl, past⟩

theorem isSettled_of_record (same : w'.record? run = w.record? run) :
    w'.isSettled run = w.isSettled run := by
  rw [isSettled, isSettled, status, status, same]

theorem ne_of_running {other : RunId} {r : Record} (past : w.isSettled run)
    (known : w.record? other = some r) (running : r.status = .running) : run ≠ other := by
  rintro rfl
  rw [isSettled, status_of_record known, running] at past
  cases past

def Inert (run : RunId) (notes : List Note) (w w' : World) : Prop :=
  w'.record? run = w.record? run ∧ ∀ x, (run, x) ∈ notes → x.isAftermath

theorem inert_of_records (records : w'.records = w.records) : Inert run [] w w' :=
  ⟨record?_congr records run, fun _ member => nomatch member⟩

theorem inert_setStatus {other : RunId} {s : Status} (different : run ≠ other) :
    Inert run [(other, .settled s)] w (w.setStatus other s) := by
  refine ⟨?_, fun x member => ?_⟩
  · rw [record?_setStatus, if_neg different]
  · obtain ⟨same, -⟩ := Prod.mk.inj (List.mem_singleton.mp member)
    exact absurd same different

theorem Inert.trans {w₁ w₂ w₃ : World} {notes₁ notes₂ : List Note} (h : Inert run notes₁ w₁ w₂)
    (h' : Inert run notes₂ w₂ w₃) : Inert run (notes₂ ++ notes₁) w₁ w₃ := by
  refine ⟨h'.1.trans h.1, fun x member => ?_⟩
  rcases List.mem_append.mp member with later | earlier
  · exact h'.2 x later
  · exact h.2 x earlier

/-- What fits a state is no more than an aftermath for a run that has settled there. -/
theorem inert_note {other : RunId} {x : Happening} (past : w.isSettled run) (fits : x.Fits w other) :
    Inert run [(other, x)] w (w.note other x) := by
  refine ⟨rfl, fun y member => ?_⟩
  obtain ⟨rfl, rfl⟩ := Prod.mk.inj (List.mem_singleton.mp member)
  cases y with
  | called _ _ =>
    have fresh : w.isSettled run = false := fits
    rw [fresh] at past
    cases past
  | spawned _ =>
    have fresh : w.isSettled run = false := fits
    rw [fresh] at past
    cases past
  | completed _ _ _ =>
    have fresh : w.isSettled run = false := fits.1
    rw [fresh] at past
    cases past
  | settled _ => exact fits.elim
  | _ => rfl

theorem Effect.inert (h : Effect notes tasks w w') (past : w.isSettled run) : Inert run notes w w' := by
  induction h with
  | kept d =>
    cases d with
    | noted fits => exact inert_note past fits
    | refused known running _ _ => exact inert_setStatus (ne_of_running past known running)
    | marked _ => exact inert_of_records rfl
  | scripted done => exact inert_of_records done.sameRuns.records
  | described d => exact inert_of_records (newCompletion_records d)
  | @recorded w r _ _ =>
    obtain ⟨r', known, -⟩ := record?_isSome past
    have old : run ≠ w.records.size := by
      rintro rfl
      simp [record?] at known
    refine ⟨?_, fun _ member => absurd member List.not_mem_nil⟩
    change (w.records.push r)[run]? = w.records[run]?
    rw [Array.getElem?_push, if_neg old]
  | tasked r _ => exact inert_of_records (newTask_sameRuns r).records
  | @watched w f other node c explicit _ =>
    have noted : Inert run [(other, .began node.head (some f))] w
        (w.note other (.began node.head (some f))) := inert_note past trivial
    exact noted.trans (inert_of_records onSettled_sameRuns.records)
  | joined _ _ => exact inert_of_records (newJoint_sameRuns _).records
  | waited _ => exact inert_of_records onSettled_sameRuns.records
  | @concluded w other r s v known running _ =>
    have settled : Inert run [(other, .settled s)] w (w.setStatus other s) :=
      inert_setStatus (ne_of_running past known running)
    exact settled.trans (inert_of_records settle_sameRuns.records)
  | failed _ _ _ _ => exact inert_of_records settle_sameRuns.records
  | trans _ _ ih ih' =>
    have first := ih past
    exact first.trans (ih' ((isSettled_of_record first.1).trans past))

/-! ### Moves without effects -/

structure Quiet (w w' : World) : Prop where
  records : w'.records = w.records
  journal : w'.journal = w.journal
  clock : w.clock ≤ w'.clock

namespace Quiet

theorem of_sameRuns (same : SameRuns w w') : Quiet w w' := ⟨same.records, same.journal, Nat.le_of_eq same.clock.symm⟩

theorem trans {w₁ w₂ w₃ : World} (h : Quiet w₁ w₂) (h' : Quiet w₂ w₃) : Quiet w₁ w₃ :=
  ⟨h'.records.trans h.records, h'.journal.trans h.journal, Nat.le_trans h.clock h'.clock⟩

theorem endTask (t : FutureId) (o : Outcome) : Quiet w (w.endTask t o) := by
  obtain ⟨s, same, -, -⟩ := endTask_cases (w := w) t o
  rw [same]
  have settled : Quiet w ((w.setPosition t .active none).settle t s) :=
    (of_sameRuns (setPosition_sameRuns _ _)).trans (of_sameRuns settle_sameRuns)
  exact ⟨settled.records, settled.journal, settled.clock⟩

theorem deliver (s : Settlement) : Quiet w (w.deliver s).2 := by
  unfold World.deliver
  split <;> exact ⟨rfl, rfl, Nat.le_refl _⟩

theorem resumeTask (t : FutureId) (o : Outcome) : Quiet w (w.resumeTask t o) := by
  obtain same | ⟨p, waiting, m, f, n, o', -, -, -, same, -⟩ :=
    resumeTask_cases (w := w) t o <;> rw [same] <;> exact ⟨rfl, rfl, Nat.le_refl _⟩

theorem childEnded (g c : FutureId) : Quiet w (w.childEnded g c) := by
  obtain same | ⟨children, ended, requested, s, n, -, -, result⟩ := childEnded_cases (w := w) g c
  · rw [same]
    exact ⟨rfl, rfl, Nat.le_refl _⟩
  · obtain ⟨same, -⟩ | ⟨s', same, -, -⟩ := result _ rfl <;> rw [same]
    · exact ⟨rfl, rfl, Nat.le_refl _⟩
    · have settled := settle_sameRuns (w := (w.repurpose g (.joint children (ended + 1) requested)).raisedTo n)
        (f := g) (s := s')
      exact ⟨settled.records, settled.journal, Nat.le_of_eq settled.clock.symm⟩

theorem handover (h : Handover w w') : Quiet w w' := by
  cases h with
  | focused f _ _ _ => exact ⟨rfl, rfl, Nat.le_refl _⟩
  | @suspended t f stack _ _ =>
    have stood : Quiet w ((w.setPosition t (.suspended stack) (some f)).onSettled f (.wake t f)) :=
      (of_sameRuns (setPosition_sameRuns _ _)).trans (of_sameRuns onSettled_sameRuns)
    exact ⟨stood.records, stood.journal, stood.clock⟩
  | @yielded t stack _ =>
    have stood : Quiet w ((w.setPosition t (.suspended stack) none).post w.agenda.loop (.resume t)) :=
      (of_sameRuns (setPosition_sameRuns _ _)).trans (of_sameRuns (post_sameRuns _))
    exact ⟨stood.records, stood.journal, stood.clock⟩
  | ended _ => exact endTask _ _

theorem interrupted (h : Interrupted w w') : Quiet w w' := by
  induction h with
  | refl _ => exact ⟨rfl, rfl, Nat.le_refl _⟩
  | settled _ => exact of_sameRuns settle_sameRuns
  | asked _ => exact ⟨rfl, rfl, Nat.le_refl _⟩
  | told _ => exact ⟨rfl, rfl, Nat.le_refl _⟩
  | trans _ _ ih ih' => exact ih.trans ih'

theorem nextTurn (next : w.nextTurn? = some w') : Quiet w w' := by
  obtain ⟨_, later, rfl⟩ := nextTurn_cases next
  exact ⟨rfl, rfl, later⟩

end Quiet

theorem Handled.effect_or_quiet (h : Handled j w w') :
    (∃ notes tasks, Effect notes tasks w w') ∨ Quiet w w' := by
  cases h with
  | effect h _ => exact .inl ⟨_, _, h⟩
  | resumed => exact .inr (.resumeTask _ _)
  | woken _ => exact .inr ((Quiet.deliver _).trans (.resumeTask _ _))
  | counted => exact .inr (.childEnded _ _)
  | freed => exact .inr (.of_sameRuns settle_sameRuns)
  | @matured f _ _ s n =>
    have settled := settle_sameRuns (w := w.raisedTo n) (f := f) (s := s)
    exact .inr ⟨settled.records, settled.journal, Nat.le_of_eq settled.clock.symm⟩
  | stopped => exact .inr ⟨rfl, rfl, Nat.le_refl _⟩

theorem Change.inert (h : Change w w') (past : w.isSettled run) :
    ∃ notes, w'.notes = notes ++ w.notes ∧ Inert run notes w w' := by
  have quiet {w w' : World} (h : Quiet w w') :
      ∃ notes, w'.notes = notes ++ w.notes ∧ Inert run notes w w' :=
    ⟨[], notes_congr h.journal, inert_of_records h.records⟩
  cases h with
  | worked e past' =>
    have first := e.inert past
    have last := Quiet.handover past'
    exact ⟨_, (notes_congr last.journal).trans e.noted, first.trans (inert_of_records last.records)⟩
  | handled _ next rest =>
    have taken := nextJob_sameRuns next
    rcases rest.effect_or_quiet with ⟨notes, tasks, e⟩ | last
    · have first : Inert run [] w _ := inert_of_records taken.records
      have mine := e.inert ((isSettled_of_record first.1).trans past)
      refine ⟨notes, ?_, by simpa using first.trans mine⟩
      rw [e.noted, notes_congr taken.journal]
    · exact quiet ((Quiet.of_sameRuns taken).trans last)
  | turned _ next => exact quiet (.nextTurn next)

theorem Move.inert (steady : w.Steady) (m : Move plan w w') (past : w.isSettled run) :
    ∃ notes, w'.notes = notes ++ w.notes ∧ Inert run notes w w' := by
  have quiet {w' : World} (h : Quiet w w') :
      ∃ notes, w'.notes = notes ++ w.notes ∧ Inert run notes w w' :=
    ⟨[], notes_congr h.journal, inert_of_records h.records⟩
  cases m with
  | stepped stepped => exact (step_change steady stepped).inert past
  | supplied _ => exact quiet ⟨rfl, rfl, Nat.le_refl _⟩
  | called r _ => exact quiet (.of_sameRuns (newTask_sameRuns r))
  | observed _ => exact quiet (.of_sameRuns onSettled_sameRuns)
  | cleared => exact quiet ⟨rfl, rfl, Nat.le_refl _⟩
  | cancelled f => exact quiet (.interrupted (cancel_interrupted f))
  | turned => exact quiet ⟨rfl, rfl, Nat.le_refl _⟩
  | opened _ _ _ _ => exact quiet ⟨rfl, rfl, Nat.le_refl _⟩
  | closed _ => exact quiet ⟨rfl, rfl, Nat.le_refl _⟩

/-- However long a machine goes on, a run that has settled keeps its record, and nothing but an
aftermath happens to it. -/
theorem Moves.inert (h : Reachable plan w) (past : w.isSettled run) (later : Moves plan w w') :
    ∃ notes, w'.notes = notes ++ w.notes ∧ Inert run notes w w' := by
  induction later with
  | refl => exact ⟨[], rfl, inert_of_records rfl⟩
  | tail before m ih =>
    obtain ⟨notes, added, first⟩ := ih
    have still := (isSettled_of_record first.1).trans past
    obtain ⟨more, added', second⟩ := m.inert (h.moves before).sound.steady still
    refine ⟨more ++ notes, ?_, first.trans second⟩
    rw [added', added, List.append_assoc]

/-! ### Steps of the executor -/

namespace Untouched

theorem refl (w : World) : Untouched w w := ⟨rfl, rfl⟩

theorem trans {w₁ w₂ w₃ : World} (h : Untouched w₁ w₂) (h' : Untouched w₂ w₃) : Untouched w₁ w₃ :=
  ⟨h'.nodes.trans h.nodes, h'.heap.trans h.heap⟩

theorem post (loop : Nat) : Untouched w (w.post loop j) := by
  unfold World.post
  split
  · exact ⟨rfl, rfl⟩
  · split <;> exact ⟨rfl, rfl⟩

theorem postAll (loop : Nat) (js : List Job) : Untouched w (w.postAll loop js) := by
  induction js generalizing w with
  | nil => exact refl w
  | cons j js ih => exact (post loop).trans ih

theorem settle (f : FutureId) (s : Settlement) : Untouched w (w.settle f s) := by
  unfold World.settle
  split
  · split
    · exact refl w
    · rename_i future _ _
      have silenced : Untouched w (w.modifyFuture f fun x => { x with settled := some s, callbacks := [] }) :=
        ⟨rfl, rfl⟩
      exact silenced.trans (postAll _ _)
  · exact refl w

theorem onSettled (f : FutureId) (j : Job) : Untouched w (w.onSettled f j) := by
  unfold World.onSettled
  split
  · split
    · exact post _
    · exact ⟨rfl, rfl⟩
  · exact refl w

theorem raise (f : Fault) : Untouched w (w.raise f).2 := ⟨rfl, rfl⟩

theorem log (x : LogEntry) : Untouched w (w.log x) := ⟨rfl, rfl⟩

theorem emitStray (f : Fault) : Untouched w (w.emitStray f) := ⟨rfl, rfl⟩

theorem note (x : Happening) : Untouched w (w.note run x) := ⟨rfl, rfl⟩

theorem leave (h : Untouched w w') (o : Outcome) : Untouched w (w'.leave t o stack) :=
  ⟨h.nodes, h.heap⟩

theorem enter (h : Untouched w w') (r : Routine) : Untouched w (w'.enter t r stack) :=
  ⟨h.nodes, h.heap⟩

theorem collect (c : CompletionId) : Untouched w (w.collect c).2 := by
  unfold World.collect
  split
  · dsimp only
    split <;> exact ⟨rfl, rfl⟩
  · exact refl w

theorem collectReport (c : CompletionId) : Untouched w (w.collectReport c).2 := by
  unfold World.collectReport
  split
  · exact refl w
  · exact collect c

theorem record (c : CompletionId) (x : Reported) : Untouched w (w.record c x).2 := by
  unfold World.record
  split
  · exact refl w
  · exact refl w
  · split
    · exact refl w
    · split
      · exact refl w
      · exact log _
    · exact ⟨rfl, rfl⟩
  · split
    · exact refl w
    · exact settle _ _

theorem failBody (h : w.failBody c e = .ok w') : Untouched w w' := by
  unfold World.failBody at h
  split at h
  · cases h
  · unfold failCompletion at h
    split at h
    · split at h
      · cases h
      · split at h
        · obtain ⟨-, rfl⟩ := failFuture_ok h
          exact settle _ _
        · obtain rfl := Except.ok.inj h
          exact refl w
    · obtain rfl := Except.ok.inj h
      exact refl w

end Untouched

theorem reject_settled (plan : Plan) (e : Raised) (past : w.isSettled run) : ∃ b, w.reject plan run e = (.ok b, w) := by
  obtain ⟨r, known, settled⟩ := record?_isSome past
  unfold World.reject
  rw [known]
  dsimp only
  split
  · exact ⟨_, rfl⟩
  · exact ⟨_, rfl⟩
  · rename_i running
    rw [running] at settled
    cases settled

theorem resolve_settled (past : w.isSettled run) : w.resolve run = (.ok (), w) := by
  obtain ⟨r, known, settled⟩ := record?_isSome past
  unfold World.resolve
  rw [known]
  dsimp only
  rw [if_pos settled]

theorem leaving_untouched (e : Raised) : Untouched w (w.leaving e).2 := by
  unfold leaving
  split
  · exact .raise .stopIterationLeft
  · exact .refl w

theorem passFailure_untouched (past : w.isSettled run) :
    Untouched w (w.passFailure plan run node t stack e) := by
  have handled : Untouched w (w.handleFailure plan run node e).2 := by
    unfold handleFailure
    obtain ⟨b, same⟩ := reject_settled plan e past
    rw [same]
    split
    · exact .refl w
    · cases b with
      | true => exact leaving_untouched e
      | false => exact .log _
  exact handled.leave _

theorem failNode_untouched (past : w.isSettled run) :
    Untouched w (w.failNode plan run node t stack e) :=
  (Untouched.note _).trans (passFailure_untouched (w := w.note run (.failed node.head e)) past)

theorem collectCall_untouched (past : w.isSettled run) :
    Untouched w (w.collectCall plan run call t stack) := by
  have collected := Untouched.collectReport (w := w) call.completion
  have records := collectReport_records (w := w) call.completion
  unfold collectCall
  generalize w.collectReport call.completion = result at collected records ⊢
  obtain ⟨r, w₁⟩ := result
  have over₁ : w₁.isSettled run := (isSettled_congr records run).trans past
  cases r with
  | error f =>
    exact collected.trans ((Untouched.raise f).trans (failNode_untouched (w := (w₁.raise f).2) over₁))
  | ok x =>
    dsimp only
    rw [if_pos over₁]
    exact collected.leave _

theorem bodyEnded_untouched {explicit : Bool} {body : FutureId} (past : w.isSettled run) :
    Untouched w (w.bodyEnded plan run node c explicit body) := by
  have unheard {e : Raised} : Untouched w (w.noteUnheard run node c e) := by
    unfold noteUnheard
    split
    · exact .note _
    · exact .refl w
  unfold bodyEnded
  split
  · dsimp only
    split
    · rename_i ok
      exact (Untouched.raise _).trans (.failBody ok)
    · exact (Untouched.raise _).trans (.emitStray _)
  · rename_i e _
    split
    · exact unheard.trans (.emitStray _)
    · have over₁ : (w.note run (.failed node.head e)).isSettled run := past
      obtain ⟨b, same⟩ := reject_settled plan e over₁
      dsimp only
      rw [same]
      cases b with
      | true => exact .note _
      | false => exact (Untouched.note _).trans (.log _)
    · split
      · rename_i ok
        exact .failBody ok
      · exact unheard.trans (.emitStray _)
  · have recorded := Untouched.record (w := w) c (.result {})
    split
    · exact .refl w
    · split
      · rename_i same
        rw [same] at recorded
        exact recorded
      · rename_i same
        rw [same] at recorded
        exact recorded.trans (.emitStray _)
  · exact .refl w

theorem enterRoutine_untouched {r : Routine} (poised : Poised w) (busy : w.focus = .enter t r stack)
    (mine : r.run? = some run) (past : w.isSettled run) :
    Untouched w (w.enterRoutine plan t stack r) := by
  have none := Untouched.refl w
  cases r with
  | drive _ => exact none.enter _
  | branches other place position entries =>
    obtain rfl : other = run := Option.some.inj mine
    unfold enterRoutine
    cases entries with
    | nil => exact none.leave _
    | cons entry rest =>
      dsimp only
      rw [if_pos past]
      exact none.leave _
  | sequential other node =>
    obtain rfl : other = run := Option.some.inj mine
    rw [poised.sequential _ _ _ _ busy] at past
    cases past
  | dispatch other place position members chains =>
    obtain rfl : other = run := Option.some.inj mine
    rw [(poised.dispatch _ _ _ _ _ _ _ busy).1] at past
    cases past
  | member other call body =>
    obtain rfl : other = run := Option.some.inj mine
    unfold enterRoutine
    dsimp only
    split
    · exact none.enter _
    · exact none.leave _
    · rename_i f _
      exact (Untouched.raise f).trans (failNode_untouched (w := (w.raise f).2) past)
  | follow other node r =>
    unfold enterRoutine
    dsimp only
    split
    · rename_i f _
      have noted : Untouched w ((w.raise f).2.note other (.failed node.head (w.raise f).1)) :=
        (Untouched.raise f).trans (.note _)
      exact noted.leave _
    · exact none.leave _
    · exact none.enter _
  | _ => cases mine

theorem resumeFrame_untouched {frame : Frame} {v : Yield} (mine : frame.run? = some run)
    (past : w.isSettled run) : Untouched w (w.resumeFrame plan t stack v frame) := by
  have none := Untouched.refl w
  cases frame with
  | drive other =>
    obtain rfl : other = run := Option.some.inj mine
    unfold resumeFrame
    dsimp only
    rw [resolve_settled past]
    exact none.leave _
  | branches other place position rest => exact none.enter _
  | returning other call =>
    obtain rfl : other = run := Option.some.inj mine
    have over₁ : (w.note other (.ended call.node.head)).isSettled other := past
    exact (Untouched.note _).trans (collectCall_untouched over₁)
  | joining other => exact none.leave _
  | completing other call body =>
    obtain rfl : other = run := Option.some.inj mine
    unfold resumeFrame
    dsimp only
    rw [if_pos past]
    exact Untouched.leave (.log _) _
  | following other call body =>
    unfold resumeFrame
    cases body with
    | none => exact Untouched.leave (.note _) _
    | some b =>
      have made : Untouched w ((w.note other (.followed call.node.head)).newFuture (.plain (.waiter b))).2 :=
        ⟨rfl, rfl⟩
      exact Untouched.enter (made.trans (.onSettled _ _)) _
  | ending other call body => exact none.leave _
  | _ => cases mine

theorem unwindFrame_untouched {frame : Frame} (mine : frame.run? = some run)
    (past : w.isSettled run) : Untouched w (w.unwindFrame plan t stack e frame) := by
  have up : Untouched w (w.leave t (.error e) stack) := (Untouched.refl w).leave _
  cases frame with
  | drive other =>
    obtain rfl : other = run := Option.some.inj mine
    unfold unwindFrame
    dsimp only
    split
    · exact up
    · obtain ⟨b, same⟩ := reject_settled plan e past
      rw [same]
      exact (Untouched.refl w).leave _
  | branches _ _ _ _ => exact up
  | joining _ => exact up
  | returning other call =>
    obtain rfl : other = run := Option.some.inj mine
    exact failNode_untouched past
  | completing other call body =>
    obtain rfl : other = run := Option.some.inj mine
    exact failNode_untouched past
  | following other call body =>
    obtain rfl : other = run := Option.some.inj mine
    exact passFailure_untouched past
  | ending other call body =>
    obtain rfl : other = run := Option.some.inj mine
    exact passFailure_untouched past
  | _ => cases mine

theorem step_untouched (poised : Poised w) (past : w.isSettled run) (mine : w.actor? = some run)
    (stepped : w.step plan = some w') : Untouched w w' := by
  unfold actor? at mine
  unfold World.step at stepped
  split at stepped
  · rename_i t r stack busy
    obtain rfl := Option.some.inj stepped
    rw [busy] at mine
    exact enterRoutine_untouched poised busy mine past
  · rename_i busy
    rw [busy] at mine
    cases mine
  · rename_i t v frame stack busy
    obtain rfl := Option.some.inj stepped
    rw [busy] at mine
    exact resumeFrame_untouched mine past
  · rename_i t e frame stack busy
    obtain rfl := Option.some.inj stepped
    rw [busy] at mine
    exact unwindFrame_untouched mine past
  · rename_i idle
    rw [idle] at mine
    dsimp only at mine
    cases next : w.nextJob? with
    | none =>
      rw [next] at mine
      cases mine
    | some taken =>
      obtain ⟨j, w₁⟩ := taken
      rw [next] at mine stepped
      obtain rfl := Option.some.inj stepped
      have same := nextJob_sameRuns next
      have here : Untouched w w₁ := by
        obtain ⟨_, _, -, rfl⟩ := nextJob_cases next
        exact ⟨rfl, rfl⟩
      cases j with
      | bodyEnded other node c explicit body =>
        obtain rfl : other = run := Option.some.inj mine
        have over₁ : w₁.isSettled other := (isSettled_congr same.records other).trans past
        exact here.trans (bodyEnded_untouched over₁)
      | _ => cases mine

/-- Once a run has settled, whatever the machine and those who use it do next and however long, its
record stays as it is, its executor calls no action, begins no nested sequence and merges no payload,
and no step that its executor makes touches a node or a value. -/
theorem settled_run_is_inert (h : Reachable plan w) (past : w.isSettled run)
    (later : Moves plan w w') :
    w'.record? run = w.record? run ∧
    (∃ notes, w'.notes = notes ++ w.notes ∧ ∀ x, (run, x) ∈ notes → x.isAftermath) ∧
    ∀ w'', w'.actor? = some run → w'.step plan = some w'' → Untouched w' w'' := by
  obtain ⟨notes, added, same, quiet⟩ := Moves.inert h past later
  refine ⟨same, ⟨notes, added, quiet⟩, fun w'' mine stepped => ?_⟩
  have poised := (h.moves later).sound.poised
  exact step_untouched poised ((isSettled_of_record same).trans past) mine stepped

/-- A plan in which a member of a group fails while the body of another one is under way. -/
def overtaken : Plan where
  tree := Graph.compileItems [.list [
    .leaf (.object 0 0) (.function {
      label := "late"
      isAsync := true
      signature := [⟨"args", .standard, false⟩, ⟨"store", .standard, false⟩]
      steps := [.sleep 1] } {}),
    .leaf (.object 1 0) (.function {
      label := "bad"
      signature := [⟨"args", .standard, false⟩, ⟨"store", .standard, false⟩]
      steps := [.raise "ValueError" none] } {})]]

theorem late_completion_is_inert : ∃ w w' w'', Reachable overtaken w ∧ w.isSettled 0 ∧
    Moves overtaken w w' ∧ w'.actor? = some 0 ∧ w'.step overtaken = some w'' ∧
    w'.record? 0 = w.record? 0 ∧ Untouched w' w'' := by
  let w := firstRun overtaken 10
  let w' := (work overtaken 25 [] w).2
  have reached : Reachable overtaken w := reachable_firstRun _ _
  have past : w.isSettled 0 := by decide +kernel
  have mine : w'.actor? = some 0 := by decide +kernel
  have goesOn : (w'.step overtaken).isSome := by decide +kernel
  obtain ⟨w'', stepped⟩ := Option.isSome_iff_exists.mp goesOn
  have later : Moves overtaken w w' := .work 25 [] w
  obtain ⟨same, -, untouched⟩ := settled_run_is_inert reached past later
  exact ⟨w, w', w'', reached, past, later, mine, stepped, same, untouched w'' mine stepped⟩

end World

end Conductor
