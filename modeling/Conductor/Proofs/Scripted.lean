import Conductor.Proofs.Heaps
import Conductor.Proofs.Jobs

/-!
# What scripts may do

The body of an action works on values, uses descriptors, leaves steps for later and makes futures.
Whatever the script, this comes down to a few elementary changes: none of them touches a record, a
node, a task or the journal, and the only older futures that they settle are those of descriptors.
-/

namespace Conductor.World

inductive Scripted : World → World → Prop where
  /-- Values, descriptors, logs and what is seen outside change. No dictionary goes. -/
  | aside {w w' : World} (same : SameRuns w w') (futures : w'.futures = w.futures)
      (agenda : w'.agenda = w.agenda) (more : w.heap.dicts.size ≤ w'.heap.dicts.size) : Scripted w w'
  /-- A concurrent descriptor is given its report. -/
  | reported {w : World} {c : CompletionId} {x : Completion} {f : FutureId} (r : Reported)
      (known : w.completion? c = some x) (own : x.future? = some f) :
      Scripted w (w.settle f (.value (.reported r)))
  | postponed {w : World} (ticks : Nat) (scope : Scope) (steps : List Step) :
      Scripted w (w.schedule ticks (.callback scope steps))
  | queued {w : World} (scope : Scope) (steps : List Step) :
      Scripted w (w.post w.agenda.loop (.callback scope steps))
  /-- A future is made. -/
  | made {w : World} : Scripted w (w.newFuture (.plain .timed)).2
  /-- A future is made that settles after some time. -/
  | timed {w : World} (ticks : Nat) (how : FutureEnd) :
      Scripted w ((w.newFuture (.plain .timed)).2.schedule ticks (.settle w.futures.size how))
  /-- A future is made that is settled. -/
  | settled {w w' : World} (s : Settlement) (proper : s.Proper)
      (same : SameRuns (w.newFuture (.plain .timed)).2 w')
      (futures : w'.futures = (w.newFuture (.plain .timed)).2.futures)
      (agenda : w'.agenda = (w.newFuture (.plain .timed)).2.agenda) (heap : w'.heap = w.heap) :
      Scripted w (w'.settle w.futures.size s)
  | trans {w₁ w₂ w₃ : World} (first : Scripted w₁ w₂) (second : Scripted w₂ w₃) : Scripted w₁ w₃

namespace Scripted

theorem refl (w : World) : Scripted w w := aside (.refl w) rfl rfl (Nat.le_refl _)

theorem sameRuns {w w' : World} (h : Scripted w w') : SameRuns w w' := by
  induction h with
  | aside same _ _ _ => exact same
  | reported _ _ _ => exact settle_sameRuns
  | postponed _ _ _ => exact schedule_sameRuns _
  | queued _ _ => exact post_sameRuns _
  | made => exact newFuture_sameRuns _
  | timed _ _ => exact (newFuture_sameRuns _).trans (schedule_sameRuns _)
  | settled _ _ same _ _ _ => exact ((newFuture_sameRuns _).trans same).trans settle_sameRuns
  | trans _ _ ih ih' => exact ih.trans ih'

theorem size_le {w w' : World} (h : Scripted w w') : w.futures.size ≤ w'.futures.size := by
  induction h with
  | aside _ futures _ _ => exact Nat.le_of_eq (congrArg Array.size futures.symm)
  | reported _ _ _ => exact Nat.le_of_eq (size_settle).symm
  | postponed _ _ _ => exact Nat.le_refl _
  | queued _ _ => exact Nat.le_of_eq (size_post _).symm
  | made => exact size_newFuture _ ▸ Nat.le_succ _
  | timed _ _ => exact size_newFuture _ ▸ Nat.le_succ _
  | settled _ _ _ futures _ _ =>
    rw [size_settle, futures, size_newFuture]
    exact Nat.le_succ _
  | trans _ _ ih ih' => exact Nat.le_trans ih ih'

theorem jobs {w w' : World} (h : Scripted w w') : ∀ j ∈ w'.jobs, j ∈ w.jobs ∨ j.source? = none := by
  have added {w w' : World} {k : Job} (more : w'.jobs.Subperm (k :: w.jobs))
      (free : k.source? = none) : ∀ j ∈ w'.jobs, j ∈ w.jobs ∨ j.source? = none := by
    intro j member
    rcases List.mem_cons.mp (more.subset member) with rfl | old
    · exact .inr free
    · exact .inl old
  induction h with
  | aside _ futures agenda _ => exact fun j member => .inl (jobs_congr futures agenda ▸ member)
  | reported _ _ _ => exact fun j member => .inl (jobs_settle.subset member)
  | postponed _ _ _ => exact added (jobs_schedule _) rfl
  | queued _ _ => exact added (jobs_post _) rfl
  | made => exact fun j member => .inl (jobs_newFuture _ ▸ member)
  | timed _ _ => exact added (jobs_newFuture (.plain .timed) ▸ jobs_schedule _) rfl
  | settled _ _ _ futures agenda _ =>
    intro j member
    have before := jobs_settle.subset member
    rw [jobs_congr futures agenda, jobs_newFuture] at before
    exact .inl before
  | trans _ _ ih ih' =>
    intro j member
    rcases ih' j member with old | free
    · exact ih j old
    · exact .inr free

end Scripted

/-- What a script that stops in a state has done: a future that it returns is one it has made. -/
structure Played (w : World) (r : Halt × World) : Prop where
  scripted : Scripted w r.2
  fresh : ∀ f, r.1 = .returned (.future f) →
    w.futures.size ≤ f ∧ r.2.purpose? f = some (.plain .timed)

variable {w w' : World}

theorem aside_of_heap {heap : Heap} (more : w.heap.dicts.size ≤ heap.dicts.size) : Scripted w { w with heap } :=
  .aside ⟨rfl, rfl, rfl, rfl, rfl, rfl, rfl, rfl⟩ rfl rfl more

theorem scripted_raise (f : Fault) : Scripted w (w.raise f).2 :=
  .aside ⟨rfl, rfl, rfl, rfl, rfl, rfl, rfl, rfl⟩ rfl rfl (Nat.le_refl _)

theorem scripted_log (e : LogEntry) : Scripted w (w.log e) :=
  .aside ⟨rfl, rfl, rfl, rfl, rfl, rfl, rfl, rfl⟩ rfl rfl (Nat.le_refl _)

theorem scripted_emit (kind : String) (details : List Datum) : Scripted w (w.emit kind details) :=
  .aside ⟨rfl, rfl, rfl, rfl, rfl, rfl, rfl, rfl⟩ rfl rfl (Nat.le_refl _)

namespace Played

theorem quiet {h : Halt} (scripted : Scripted w w') (other : ∀ f, h ≠ .returned (.future f)) :
    Played w (h, w') :=
  ⟨scripted, fun f same => absurd same (other f)⟩

theorem after {r : Halt × World} (first : Scripted w w') (rest : Played w' r) : Played w r :=
  ⟨first.trans rest.scripted, fun f same =>
    ⟨Nat.le_trans first.size_le (rest.fresh f same).1, (rest.fresh f same).2⟩⟩

theorem failNow (f : Fault) : Played w (w.failNow f) :=
  .quiet (scripted_raise f) (by simp)

theorem finishWith {r : Except Fault Unit × World} (h : Scripted w r.2) :
    Played w (World.finishWith r) := by
  obtain ⟨result, w'⟩ := r
  cases result with
  | ok _ => exact .quiet h (by simp)
  | error f => exact .after h (.failNow f)

theorem finishHeap {r : Except Fault Heap} (kept : ∀ h, r = .ok h → h.dicts.size = w.heap.dicts.size) :
    Played w (w.finishHeap r) := by
  cases r with
  | ok heap => exact .quiet (aside_of_heap (Nat.le_of_eq (kept heap rfl).symm)) (by simp)
  | error f => exact .failNow f

theorem withValue {scope : Scope} {t : Template} {next : World → Value → Halt × World}
    (h : ∀ w' v, Played w' (next w' v)) : Played w (w.withValue scope t next) := by
  unfold World.withValue World.eval
  dsimp only
  have more := (Template.eval_keeps (w.surroundings scope) t w.heap).size
  split
  · rename_i same
    obtain ⟨-, rfl⟩ := Prod.mk.inj same
    exact .after (aside_of_heap more) (.failNow _)
  · rename_i same
    obtain ⟨-, rfl⟩ := Prod.mk.inj same
    exact .after (aside_of_heap more) (h _ _)

theorem withValues {scope : Scope} {ts : List Template} {next : World → List Value → Halt × World}
    (h : ∀ w' vs, Played w' (next w' vs)) : Played w (w.withValues scope ts next) := by
  unfold World.withValues World.evalList
  dsimp only
  have more := (Template.evalList_keeps (w.surroundings scope) ts w.heap).size
  split
  · rename_i same
    obtain ⟨-, rfl⟩ := Prod.mk.inj same
    exact .after (aside_of_heap more) (.failNow _)
  · rename_i same
    obtain ⟨-, rfl⟩ := Prod.mk.inj same
    exact .after (aside_of_heap more) (h _ _)

theorem withResult {r : Except Fault Value} {next : Value → Halt × World}
    (h : ∀ v, Played w (next v)) : Played w (w.withResult r next) := by
  cases r with
  | ok v => exact h v
  | error f => exact .failNow f

end Played

/-! ### Descriptors -/

theorem scripted_modifyCompletion (c : CompletionId) (change : Completion → Completion)
    (keeps : ∀ x, (change x).future? = x.future?) : Scripted w (w.modifyCompletion c change) := by
  refine .aside ⟨rfl, rfl, rfl, rfl, rfl, rfl, ?_, rfl⟩ rfl rfl (Nat.le_refl _)
  apply Array.ext_getElem?
  intro i
  simp only [modifyCompletion, Array.getElem?_map, Array.getElem?_modify]
  split
  · cases w.completions[i]? <;> simp [keeps]
  · rfl

theorem scripted_modifyDescriptor (c : CompletionId) (change : Descriptor → Descriptor) :
    Scripted w (w.modifyDescriptor c change) :=
  scripted_modifyCompletion c _ fun _ => rfl

theorem scripted_setRecorded {c : CompletionId} {x : Completion} {r : Recorded}
    (known : w.completion? c = some x) (own : x.future? = none) (new : ∀ f, r ≠ .first f) :
    Scripted w (w.setRecorded c r) := by
  refine .aside ⟨rfl, rfl, rfl, rfl, rfl, rfl, ?_, rfl⟩ rfl rfl (Nat.le_refl _)
  apply Array.ext_getElem?
  intro i
  simp only [setRecorded, modifyCompletion, Array.getElem?_map, Array.getElem?_modify]
  split
  · rename_i same
    subst same
    rw [show w.completions[c]? = some x from known]
    cases r <;> simp_all [Completion.future?]
  · rfl

theorem scripted_record (c : CompletionId) (x : Reported) : Scripted w (w.record c x).2 := by
  unfold record
  split
  · exact .refl w
  · exact .refl w
  · rename_i d r collected known
    split
    · exact .refl w
    · split
      · exact .refl w
      · exact scripted_log _
    · exact (scripted_setRecorded (r := .latest (some x) collected) known rfl (by simp)).trans
        (scripted_modifyDescriptor c (·.restore "_result"))
  · rename_i d f known
    split
    · exact .refl w
    · rename_i g place
      have same : g = f := by
        unfold futureOf at place
        split at place <;> simp_all
      subst same
      exact .reported x known rfl

theorem scripted_recordReport (c : CompletionId) (r : Except Fault Reported) :
    Scripted w (w.recordReport c r).2 := by
  cases r with
  | ok x => exact scripted_record c x
  | error f => exact .refl w

theorem scripted_collect (c : CompletionId) : Scripted w (w.collect c).2 := by
  unfold collect
  split
  · rename_i d r collected known
    have changed := (scripted_setRecorded (r := .latest r true) known rfl (by simp)).trans
      (scripted_modifyDescriptor c (·.restore "_collected"))
    dsimp only
    split <;> exact changed
  · exact .refl w

theorem scripted_writeAttribute (c : CompletionId) (name v : Value) :
    Scripted w (w.writeAttribute c name v).2 := by
  unfold writeAttribute
  split
  · exact .refl w
  · exact .refl w
  · split
    · exact scripted_modifyDescriptor c fun d => d.replaceOwn _
    · exact .refl w
  · exact scripted_modifyDescriptor c fun d => d.write _ _
  · exact .refl w

theorem scripted_removeAttribute (c : CompletionId) (d : Descriptor) (name : Value) :
    Scripted w (w.removeAttribute c d name).2 := by
  unfold removeAttribute
  split
  · exact .refl w
  · exact .refl w
  · exact scripted_modifyDescriptor c fun d => d.replaceOwn _
  · split
    · exact scripted_modifyDescriptor c fun d => d.write _ _
    · exact .refl w
  · exact .refl w

theorem scripted_callInherited (c : CompletionId) (d : Descriptor) (name : String) (i : Inherited)
    (arguments : List Value) : Scripted w (w.callInherited c d name i arguments).2 := by
  unfold callInherited
  split
  · exact .refl w
  · split
    · exact scripted_writeAttribute _ _ _
    · exact scripted_removeAttribute _ _ _
    all_goals exact .refl w

theorem scripted_callMethod (c : CompletionId) (d : Descriptor) (m : Method)
    (arguments : List Value) : Scripted w (w.callMethod c d m arguments).2 := by
  unfold callMethod
  split
  · exact scripted_recordReport _ _
  · split
    · exact .refl w
    · split
      · exact .refl w
      · exact scripted_modifyDescriptor c fun d =>
          (d.write "_node" _).write "_default_output" _
      · exact scripted_collect c
      all_goals exact .refl w

theorem scripted_callMember (c : CompletionId) (m : Member) (arguments : List Value) :
    Scripted w (w.callMember c m arguments).2 := by
  unfold callMember
  split
  · exact .refl w
  · dsimp only
    split
    · exact .refl w
    · exact .refl w
    · exact scripted_recordReport _ _
    · exact scripted_callMethod _ _ _ _
    · exact scripted_callInherited _ _ _ _ _
    · exact .refl w

theorem scripted_callAttribute (a : Attribute) (arguments : List Value) :
    Scripted w (w.callAttribute a arguments).2 := by
  cases a with
  | member c m => exact scripted_callMember c m arguments
  | commit =>
    simp only [callAttribute]
    split
    · exact .refl w
    · exact scripted_emit _ _
  | plain v m => exact aside_of_heap (Nat.le_of_eq (Heap.callMember_size _ _ _).symm)

theorem scripted_callValue (v : Value) (arguments : List Value) :
    Scripted w (w.callValue v arguments).2 := by
  unfold callValue
  split
  · unfold callCompletion
    split
    · exact .refl w
    · exact scripted_recordReport _ _
  · exact .refl w

/-! ### Scripts -/

theorem Played.withFound {container k : Value} {a : Attribute}
    {next : World → Value → Halt × World} (h : ∀ w' v, Played w' (next w' v)) :
    Played w (w.withFound container a k next) := by
  unfold World.withFound
  split
  · split
    · exact .failNow _
    · exact h _ _
  · have called := scripted_callAttribute (w := w) a [k]
    split
    · rename_i same
      rw [same] at called
      exact .after called (.failNow _)
    · rename_i same
      rw [same] at called
      exact .after called (h _ _)

theorem scripted_sharedFault (slot name : String) (message : Option String) :
    Scripted w (w.sharedFault slot name message).2 := by
  unfold sharedFault
  split
  · exact .refl w
  · split
    · exact scripted_raise _
    · exact .aside ⟨rfl, rfl, rfl, rfl, rfl, rfl, rfl, rfl⟩ rfl rfl (Nat.le_refl _)

theorem failFuture_ok {f : FutureId} {e : Raised} (h : w.failFuture f e = .ok w') :
    e.fault.nature ≠ .stopIteration ∧ w' = w.settle f (.failed e) := by
  unfold failFuture at h
  split at h
  · cases h
  · split at h
    · cases h
    · rename_i proper
      exact ⟨proper, (Except.ok.inj h).symm⟩

theorem reachTime_ok {f : FutureId} {how : FutureEnd} (h : w.reachTime f how = .ok w') :
    ∃ n s, Settlement.Proper s ∧ w' = ({ w with raisedCount := n }).settle f s := by
  unfold reachTime at h
  split at h
  · exact ⟨w.raisedCount, .value .nothing, trivial, (Except.ok.inj h).symm⟩
  · exact ⟨w.raisedCount, .cancelled none, by simp [Settlement.Proper], (Except.ok.inj h).symm⟩
  · split at h
    · cases h
    · rename_i fault _
      obtain ⟨proper, rfl⟩ := failFuture_ok h
      exact ⟨w.raisedCount + 1, .failed ⟨w.raisedCount, fault⟩, proper, rfl⟩

theorem scripted_reachTime {how : FutureEnd}
    (h : (w.newFuture (.plain .timed)).2.reachTime w.futures.size how = .ok w') :
    Scripted w w' := by
  obtain ⟨n, s, proper, rfl⟩ := reachTime_ok h
  exact .settled s proper ⟨rfl, rfl, rfl, rfl, rfl, rfl, rfl, rfl⟩ rfl rfl rfl

theorem reachTime_purpose? {f g : FutureId} {how : FutureEnd} (h : w.reachTime f how = .ok w') :
    w'.purpose? g = w.purpose? g := by
  obtain ⟨n, s, -, rfl⟩ := reachTime_ok h
  exact purpose?_settle

theorem Played.returnFuture (ticks : Option Nat) (how : FutureEnd) :
    Played w (w.returnFuture ticks how) := by
  unfold World.returnFuture
  have own : (w.newFuture (.plain .timed)).2.purpose? w.futures.size = some (.plain .timed) := by
    rw [purpose?_newFuture, if_pos rfl]
  dsimp only [newFuture] at own ⊢
  split
  · refine ⟨.timed _ how, fun f same => ?_⟩
    obtain rfl : w.futures.size = f := by simpa using same
    exact ⟨Nat.le_refl _, own⟩
  · split
    · rename_i w' reached
      refine ⟨scripted_reachTime reached, fun f same => ?_⟩
      obtain rfl : w.futures.size = f := by simpa using same
      exact ⟨Nat.le_refl _, (reachTime_purpose? reached).trans own⟩
    · exact .after .made (.failNow _)

theorem Played.before {r : Halt × World} (h : Played w r) (rest : List Step) :
    Played w (r.1.before rest, r.2) := by
  refine ⟨h.scripted, fun f same => h.fresh f ?_⟩
  revert same
  cases r.1 <;> simp [Halt.before]

theorem Played.within {r : Halt × World} (h : Played w r) (outer : List (List Step))
    (rest : List Step) : Played w (r.1.within outer rest, r.2) := by
  refine ⟨h.scripted, fun f same => h.fresh f ?_⟩
  revert same
  cases r.1 <;> simp [Halt.within]

theorem Played.caught {r : Halt × World} (h : Played w r) : Played w (World.caught r) := by
  unfold World.caught
  split
  · rename_i e w'
    split
    · exact .quiet (h.scripted.trans (scripted_emit _ _)) (by simp)
    · exact .quiet h.scripted (by simp)
  · exact h

mutual

theorem played_runStep (scope : Scope) (s : Step) (w : World) : Played w (runStep scope s w) := by
  match s with
  | .log _ => exact .withValue fun _ _ => .quiet (scripted_emit _ _) (by simp)
  | .see => exact .quiet (scripted_emit _ _) (by simp)
  | .get _ =>
    exact .withValue fun _ _ => .withResult fun _ => .quiet (scripted_emit _ _) (by simp)
  | .commit _ _ =>
    unfold runStep
    split
    · exact .failNow _
    · exact .withValue fun _ _ => .withValue fun _ _ => .withResult fun _ =>
        .finishWith (scripted_callAttribute _ _)
  | .set _ _ => exact .withValue fun _ _ => .withValue fun _ _ => .finishHeap fun _ => Heap.setItem_size
  | .delete _ => exact .withValue fun _ _ => .finishHeap fun _ => Heap.deleteItem_size
  | .append _ _ =>
    refine .withValue fun _ _ => .withResult fun _ => ?_
    split
    · exact .failNow _
    · exact .withValue fun _ _ => .finishWith (scripted_callAttribute _ _)
  | .call _ => exact .withValues fun _ _ => .finishWith (scripted_callValue _ _)
  | .attribute _ _ =>
    unfold runStep
    split
    · exact .failNow _
    · exact .withValues fun _ _ => .finishWith (scripted_callAttribute _ _)
  | .stash _ => exact .quiet (.aside ⟨rfl, rfl, rfl, rfl, rfl, rfl, rfl, rfl⟩ rfl rfl (Nat.le_refl _)) (by simp)
  | .use _ _ =>
    unfold runStep
    split
    · exact .failNow _
    · exact .withValues fun _ _ => .finishWith (scripted_callValue _ _)
  | .raise _ _ => exact .failNow _
  | .raiseShared _ _ _ => exact .quiet (scripted_sharedFault _ _ _) (by simp)
  | .later ticks steps => exact .quiet (.postponed ticks scope steps) (by simp)
  | .soon steps => exact .quiet (.queued scope steps) (by simp)
  | .attempt steps => exact ((played_runSteps scope steps w).caught).within [] []
  | .choose _ _ yes no =>
    unfold runStep
    split
    · exact .failNow _
    · refine .withValue fun _ _ => .withFound fun _ _ => .withValue fun w' _ => ?_
      split
      · exact played_runSteps scope yes w'
      · exact played_runSteps scope no w'
  | .sleep _ => exact .quiet (.refl w) (by simp)
  | .run _ => exact .withValue fun _ _ => .quiet (.refl _) (by simp)
  | .finish _ => exact .withValue fun _ _ => .quiet (.refl _) (by simp)
  | .finishRoutine _ => exact .quiet (.refl w) (by simp)
  | .finishFuture ticks how => exact .returnFuture ticks how

theorem played_runSteps (scope : Scope) (steps : List Step) (w : World) :
    Played w (runSteps scope steps w) := by
  cases steps with
  | nil => exact .quiet (.refl w) (by simp)
  | cons s rest =>
    have first := played_runStep scope s w
    unfold runSteps
    split
    · rename_i w' same
      rw [same] at first
      exact .after first.scripted (played_runSteps scope rest w')
    · rename_i h w' _ same
      rw [same] at first
      exact first.before rest

end

theorem played_runFrom (scope : Scope) (rest : List Step) (attempts : List (List Step)) (w : World) :
    Played w (runFrom scope rest attempts w) := by
  induction attempts generalizing w with
  | nil => exact played_runSteps scope rest w
  | cons steps outer ih =>
    have first := (played_runSteps scope steps w).caught
    unfold runFrom
    split
    · rename_i w' same
      rw [same] at first
      exact .after first.scripted (ih w')
    · rename_i h w' _ same
      rw [same] at first
      exact first.within outer rest

theorem played_runRemainder (scope : Scope) (r : Remainder) (w : World) :
    Played w (runRemainder scope r w) :=
  played_runFrom scope r.steps r.attempts w

/-! ### Calls -/

/-- What a call that gives something back has done: a future that it gives back is one it has made. -/
structure Invoked (w : World) (r : Except Raised Returned × World) : Prop where
  scripted : Scripted w r.2
  fresh : ∀ f, r.1 = .ok (.future f) →
    w.futures.size ≤ f ∧ r.2.purpose? f = some (.plain .timed)

theorem Invoked.quiet {r : Except Raised Returned} (scripted : Scripted w w')
    (other : ∀ f, r ≠ .ok (.future f)) : Invoked w (r, w') :=
  ⟨scripted, fun f same => absurd same (other f)⟩

theorem Invoked.constructed {r : Except Raised Returned} {type : String}
    (scripted : Scripted w w') : Invoked w (w'.constructed type r) := by
  unfold World.constructed
  split
  · exact .quiet scripted (by simp)
  · rename_i r _
    exact .quiet (scripted.trans (scripted_raise (.initResult (returnedType r)))) (by simp)
  · exact .quiet scripted (by simp)

def called (w : World) (f : Function) (scope : Scope) : Except Raised Returned × World :=
  if f.packaging = .generator then (.ok (.plain "generator"), w)
  else if f.isAsync then (.ok (.routine scope f.steps), w)
  else match runSteps scope f.steps w with
    | (.failed e, w) => (.error e, w)
    | (.returned r, w) => (.ok r, w)
    | (_, w) => (.ok (.plain "NoneType"), w)

theorem invoke_eq (a : Action) (arguments : List Value) : w.invoke a arguments =
    match a.prepare arguments [] with
    | .error f => (.error (w.raise f).1, (w.raise f).2)
    | .ok ⟨f, scope⟩ =>
      if f.packaging = .constructor then (w.called f scope).2.constructed f.label (w.called f scope).1
      else w.called f scope := rfl

theorem invoked (a : Action) (arguments : List Value) : Invoked w (w.invoke a arguments) := by
  rw [invoke_eq]
  split
  · rename_i f _
    exact .quiet (scripted_raise f) (by simp)
  · rename_i f scope _
    have inside : Invoked w (w.called f scope) := by
      unfold World.called
      split
      · exact .quiet (.refl w) (by simp)
      · split
        · exact .quiet (.refl w) (by simp)
        · have played := played_runSteps scope f.steps w
          split
          · rename_i e w' same
            rw [same] at played
            exact .quiet played.scripted (by simp)
          · rename_i r w' same
            rw [same] at played
            exact ⟨played.scripted, fun g eq => played.fresh g (congrArg Halt.returned (Except.ok.inj eq))⟩
          · rename_i h w' _ _ same
            rw [same] at played
            exact .quiet played.scripted (by simp)
    split
    · exact .constructed inside.scripted
    · exact inside

end Conductor.World
