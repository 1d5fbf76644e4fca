import Conductor.Proofs.Lineup
import Conductor.Proofs.Rejections

/-!
# What escapes from actions

A run hears of the failures that leave the calls of its actions, or what those have given back. Whatever else it
hears of failed where the executor itself collects, merges or follows what was reported, and is ordinary. What
escapes is noted in the very step, and rejects a run that is running if it is ordinary.
-/

namespace Conductor

namespace Descriptor

variable {d : Descriptor} {name : String} {h : Heap} {f : Fault}

theorem book_nature (failed : d.book name = .error f) : f.nature = .ordinary := by
  unfold book at failed
  split at failed <;> cases failed
  rfl

theorem delegate_nature (failed : d.delegate name = .error f) : f.nature = .ordinary := by
  unfold delegate at failed
  split at failed <;> cases failed
  rfl

theorem node_nature (failed : d.node = .error f) : f.nature = .ordinary := by
  unfold node at failed
  split at failed
  · rename_i books
    exact Except.error.inj failed ▸ book_nature books
  · cases failed
    rfl
  · cases failed

theorem texts_nature {position : Nat} {vs : List Value} (failed : texts position vs = .error f) :
    f.nature = .ordinary := by
  fun_induction texts position vs with
  | case1 => cases failed
  | case2 position s rest ih =>
    cases listed : texts (position + 1) rest with
    | error f' =>
      rw [listed] at failed
      obtain rfl := Except.error.inj failed
      exact ih listed
    | ok names =>
      rw [listed] at failed
      cases failed
  | case3 =>
    cases failed
    rfl

theorem outputTexts_nature (failed : d.outputTexts h = .error f) : f.nature = .ordinary := by
  unfold outputTexts at failed
  split at failed
  · rename_i books
    exact Except.error.inj failed ▸ book_nature books
  · exact texts_nature failed
  · split at failed
    · exact texts_nature failed
    · cases failed
      rfl

theorem missingAttribute_nature : (d.missingAttribute h name).nature = .ordinary := by
  unfold missingAttribute
  split
  · rfl
  · split
    · rename_i failed
      exact node_nature failed
    · rename_i failed
      exact outputTexts_nature failed
    · rfl

end Descriptor

namespace World

variable {plan : Plan} {w w' w₁ : World} {run : RunId} {n : Node} {e : Raised} {call : Call} {t : FutureId} {f : Fault}
  {stack : List Frame} {h : Head} {notes : List Note} {body : Option FutureId} {c : CompletionId} {policy : Policy}

/-! ### Faults of the executor -/

theorem attributeFault_nature {v : Value} {name : String} : (w.attributeFault v name).nature = .ordinary := by
  unfold attributeFault
  split
  · split
    · exact Descriptor.missingAttribute_nature
    · rfl
  · rfl

theorem collectReport_nature (failed : (w.collectReport c).1 = .error f) : f.nature = .ordinary := by
  unfold collectReport at failed
  split at failed
  · rename_i delegates
    obtain rfl := Except.error.inj failed
    unfold delegate at delegates
    split at delegates
    · exact Descriptor.delegate_nature delegates
    · cases delegates
  · unfold collect at failed
    split at failed
    · dsimp only at failed
      split at failed
      · rename_i books
        exact Except.error.inj failed ▸ Descriptor.book_nature books
      · cases failed
    · cases failed

theorem completeReport_nature {x : Conductor.Reported} (failed : w.completeReport plan run call x = .error f) :
    f.nature = .ordinary := by
  rcases bind_error failed with read | ⟨r, -, failed⟩
  · cases x with
    | value v =>
      obtain rfl := Except.error.inj read
      exact attributeFault_nature
    | result r => cases read
  · rcases bind_error failed with done | ⟨_, -, failed⟩
    · unfold complete at done
      split at done
      · rename_i merges
        obtain rfl := Except.error.inj done
        unfold Heap.merge at merges
        split at merges
        · cases merges
        · split at merges
          · cases merges
          · cases merges
            rfl
      · cases done
    · cases failed

/-! ### What reaches a run -/

/-- Whether the machine is about to tell a run of the failure of the call of a node, or of what that gave back. -/
inductive Escapes (plan : Plan) (w : World) (run : RunId) (e : Raised) : Prop where
  | called {t : FutureId} {n : Node} {stack : List Frame} {w₁ : World}
      (here : w.focus = .enter t (.sequential run n) stack)
      (fails : w.answer plan run n .sequential = (.error e, w₁))
  | dispatched {t : FutureId} {place : Path} {position : Nat} {n : Node} {rest : List Entry}
      {chains : List FutureId} {stack : List Frame} {w₁ : World}
      (here : w.focus = .enter t (.dispatch run place position (n.entry :: rest) chains) stack)
      (fails : w.answer plan run n .concurrent = (.error e, w₁))
  | awaited {t : FutureId} {call : Call} {stack : List Frame}
      (here : w.focus = .leave t (.error e) (.returning run call :: stack))
  | reported {t : FutureId} {call : Call} {body : Option FutureId} {stack : List Frame}
      (here : w.focus = .leave t (.error e) (.completing run call body :: stack))
  | belated {w' : World} (late : w.Belated plan run e w')

theorem answer_records {x : Except Raised Returned} (answered : w.answer plan run n policy = (x, w₁)) :
    w₁.records = w.records := by
  have played : (calling plan run n policy w).2.records = (calling plan run n policy w).1.records :=
    (calling_played policy).records
  have ends : (calling plan run n policy w).2 = w₁ := congrArg Prod.snd answered
  rw [ends] at played
  have made : (w.newCompletion (descriptor plan n policy)).2.records = w.records := by
    cases policy <;> rfl
  exact played.trans (beginNode_records.trans made)

/-- A node that fails tells its run, which is rejected if the failure is ordinary. -/
theorem failNode_told (plan : Plan) (run : RunId) (n : Node) (t : FutureId) (stack : List Frame) (e : Raised)
    (w : World) : (run, .failed n.head e) ∈ (w.failNode plan run n t stack e).notes ∧
      (e.fault.isOrdinary → (w.record? run).isSome → w.isSettled run = false →
        ∃ ms, (w.failNode plan run n t stack e).status run = .rejected ms e) := by
  obtain ⟨rejections, losing⟩ := handleFailure_catching plan run n e (w.note run (.failed n.head e))
  have noted : (run, .failed n.head e) ∈ ((w.note run (.failed n.head e)).handleFailure plan run n e).2.notes :=
    losing.effect.noted ▸ List.mem_append_right _ List.mem_cons_self
  exact ⟨noted, losing.rejects⟩

/-- What escapes is noted at once, and rejects a run that is running if it is ordinary. -/
theorem Escapes.told (escapes : w.Escapes plan run e) (runs : Runs plan run w) :
    ∃ w', w.step plan = some w' ∧ (∃ h, (run, .failed h e) ∈ w'.notes) ∧
      (e.fault.isOrdinary → w.isSettled run = false → ∃ ms, w'.status run = .rejected ms e) := by
  have known := runs.known
  cases escapes with
  | @called t n stack w₁ here fails =>
    have records := answer_records fails
    have step : w.step plan = some (w₁.failNode plan run n t stack e) := by
      unfold answer at fails
      simp only [step, here, enterRoutine, enterSequential]
      dsimp only at fails ⊢
      rw [fails]
    obtain ⟨noted, rejects⟩ := failNode_told plan run n t stack e w₁
    refine ⟨_, step, ⟨_, noted⟩, fun ordinary running => rejects ordinary ?_ ?_⟩
    · rwa [record?_congr records]
    · exact (isSettled_congr records run).trans running
  | @dispatched t place position n rest chains stack w₁ here fails =>
    have records := answer_records fails
    have step : w.step plan = some (leaveWith ((w₁.note run (.failed n.head e)).failDispatch plan run e) t stack) := by
      unfold answer at fails
      simp only [step, here, enterRoutine, Node.entry, dispatchMember]
      dsimp only at fails ⊢
      rw [fails]
    have running : w.isSettled run = false := (runs.reachable.sound.steady.dispatch _ _ _ _ _ _ _ here).1
    have running' : (w₁.note run (.failed n.head e)).isSettled run = false :=
      (isSettled_congr records run).trans running
    obtain ⟨rejections, losing⟩ := failDispatch_catching plan run e (w₁.note run (.failed n.head e)) running'
    have noted : (run, .failed n.head e) ∈ ((w₁.note run (.failed n.head e)).failDispatch plan run e).2.notes :=
      losing.effect.noted ▸ List.mem_append_right _ List.mem_cons_self
    refine ⟨_, step, ⟨_, noted⟩, fun ordinary _ => losing.rejects ordinary ?_ running'⟩
    exact show (w₁.record? run).isSome by rwa [record?_congr records]
  | @awaited t call stack here =>
    obtain ⟨noted, rejects⟩ := failNode_told plan run call.node t stack e w
    exact ⟨_, by rw [step, here]; rfl, ⟨_, noted⟩, fun ordinary => rejects ordinary known⟩
  | @reported t call body stack here =>
    obtain ⟨noted, rejects⟩ := failNode_told plan run call.node t stack e w
    exact ⟨_, by rw [step, here]; rfl, ⟨_, noted⟩, fun ordinary => rejects ordinary known⟩
  | belated late =>
    cases late with
    | @mk node c explicit b w₁ idle next failed completed =>
      have records := (nextJob_sameRuns next).records
      have tried := reject_rejecting plan run e (w₁.note run (.failed node.head e))
      have step : w.step plan = some (w₁.runJob plan (.bodyEnded run node c explicit b)) := by
        simp only [step, idle, next]
      have late := (bodyEnded_late plan run node explicit failed completed).sameRuns
      obtain ⟨rejections, effect, -⟩ := tried.effect
      refine ⟨_, step, ⟨node.head, ?_⟩, fun _ running => ?_⟩
      · exact notes_congr late.journal ▸ effect.noted ▸ List.mem_append_right _ List.mem_cons_self
      · obtain ⟨ms, rejected⟩ := tried.rejects (show (w₁.record? run).isSome by rwa [record?_congr records])
          ((isSettled_congr records run).trans running)
        exact ⟨ms, (status_congr late.records run).trans rejected⟩

/-! ### What a run hears of -/

theorem failNode_failed {x : Raised}
    (noted : (run, .failed h e) ∈ (w.failNode plan run n t stack x).notes) : (run, .failed h e) ∈ w.notes ∨ e = x := by
  obtain ⟨notes, w', next, lost, same⟩ := lost_failNode plan run n x t stack (Effect.refl w)
  have there : (run, .failed h e) ∈ w'.notes := by rwa [same] at noted
  rw [lost.effect.noted] at there
  rcases List.mem_append.mp there with new | old
  · exact .inr (lost.own new (by simp)).2.2
  · exact .inl old

theorem raised_failed (nature : f.nature = .ordinary)
    (noted : (run, .failed h e) ∈ ((w.raise f).2.failNode plan run n t stack (w.raise f).1).notes) :
    (run, .failed h e) ∈ w.notes ∨ e.fault.nature = .ordinary := by
  rcases failNode_failed noted with old | rfl
  · exact .inl old
  · exact .inr nature

theorem finishCall_failed {x : Conductor.Reported} (fresh : w.isSettled run = false)
    (noted : (run, .failed h e) ∈ (w.finishCall plan run call x body t stack).notes) :
    (run, .failed h e) ∈ w.notes ∨ e.fault.nature = .ordinary := by
  unfold finishCall at noted
  split at noted
  · rename_i failed
    exact raised_failed (completeReport_nature failed) noted
  · rename_i r w₁ ok
    obtain ⟨payload, effect⟩ := complete_effect fresh (completeReport_ok ok).2
    have there : (run, .failed h e) ∈ w₁.notes := noted
    rw [effect.noted] at there
    exact .inl ((List.mem_cons.mp there).resolve_left (by simp))

theorem collectCall_failed (noted : (run, .failed h e) ∈ (w.collectCall plan run call t stack).notes) :
    (run, .failed h e) ∈ w.notes ∨ e.fault.nature = .ordinary := by
  have collected : (w.collectReport call.completion).2.notes = w.notes := (collectReport_effect call.completion).noted
  unfold collectCall at noted
  split at noted <;> rename_i same <;> rw [same] at collected
  · rename_i f w₁
    have nature : f.nature = .ordinary := collectReport_nature (congrArg Prod.fst same)
    rw [← show w₁.notes = w.notes from collected]
    exact raised_failed nature noted
  · rename_i x w₁
    rw [← show w₁.notes = w.notes from collected]
    split at noted
    · exact .inl noted
    · rename_i fresh
      exact finishCall_failed (by simpa using fresh) noted

theorem answer_failed {policy : Policy} {a : Except Raised Returned} (answered : w.answer plan run n policy = (a, w₁))
    (noted : (run, .failed h e) ∈ w₁.notes) : (run, .failed h e) ∈ w.notes :=
  (noted_answer answered noted).resolve_right nofun

theorem enterSequential_failed (here : w.focus = .enter t (.sequential run n) stack)
    (noted : (run, .failed h e) ∈ (w.enterSequential plan run n t stack).notes) :
    (run, .failed h e) ∈ w.notes ∨ e.fault.nature = .ordinary ∨ w.Escapes plan run e := by
  generalize answered : w.answer plan run n .sequential = r
  obtain ⟨a, w₁⟩ := r
  have answered' := answered
  unfold answer at answered'
  unfold enterSequential at noted
  dsimp only at answered' noted
  rw [answered'] at noted
  cases a with
  | error x =>
    rcases failNode_failed noted with old | rfl
    · exact .inl (answer_failed answered old)
    · exact .inr (.inr (.called here answered))
  | ok back =>
    cases back with
    | plain v => exact (collectCall_failed noted).imp (answer_failed answered) .inl
    | routine scope steps => exact .inl (answer_failed answered ((List.mem_cons.mp noted).resolve_left (by simp)))
    | future g => exact .inl (answer_failed answered ((List.mem_cons.mp noted).resolve_left (by simp)))

theorem notes_chainMember {explicit : Bool} {b : FutureId} :
    (w.chainMember run call explicit b).2.notes = (run, .began call.node.head (some b)) :: w.notes := by
  unfold chainMember
  exact (notes_congr (newTask_sameRuns _).journal).trans (notes_congr onSettled_sameRuns.journal)

theorem enterDispatch_failed {place : Path} {position : Nat} {rest : List Entry} {chains : List FutureId}
    (steady : w.Steady) (here : w.focus = .enter t (.dispatch run place position (n.entry :: rest) chains) stack)
    (noted : (run, .failed h e) ∈
      (w.enterRoutine plan t stack (.dispatch run place position (n.entry :: rest) chains)).notes) :
    (run, .failed h e) ∈ w.notes ∨ e.fault.nature = .ordinary ∨ w.Escapes plan run e := by
  have running := (steady.dispatch t run place position _ chains stack here).1
  generalize answered : w.answer plan run n .concurrent = r
  obtain ⟨a, w₁⟩ := r
  have answered' := answered
  unfold answer at answered'
  simp only [enterRoutine, Node.entry, dispatchMember] at noted
  dsimp only at answered' noted
  rw [answered'] at noted
  cases a with
  | error x =>
    have running' : (w₁.note run (.failed n.head x)).isSettled run = false :=
      (isSettled_congr (answer_records answered) run).trans running
    obtain ⟨rejections, losing⟩ := failDispatch_catching plan run x (w₁.note run (.failed n.head x)) running'
    have there : (run, .failed h e) ∈ ((w₁.note run (.failed n.head x)).failDispatch plan run x).2.notes := noted
    rw [losing.effect.noted] at there
    rcases List.mem_append.mp there with rejection | failure
    · obtain ⟨ms, y, same⟩ := losing.only _ rejection
      cases same
    · rcases List.mem_cons.mp failure with same | old
      · obtain ⟨-, rfl⟩ := Happening.failed.inj (Prod.mk.inj same).2
        exact .inr (.inr (.dispatched here answered))
      · exact .inl (answer_failed answered old)
  | ok back =>
    left
    cases back with
    | plain v =>
      have there : (run, .failed h e) ∈ (w₁.chainPlain run _ _).2.notes := noted
      rw [notes_chainPlain] at there
      exact answer_failed answered there
    | routine scope steps =>
      have there : (run, .failed h e) ∈
          ((w₁.newTask (.script scope ⟨[], steps⟩)).2.chainMember run _ _ _).2.notes := noted
      rw [notes_chainMember, notes_congr (newTask_sameRuns _).journal] at there
      exact answer_failed answered ((List.mem_cons.mp there).resolve_left (by simp))
    | future g =>
      have there : (run, .failed h e) ∈ (w₁.chainMember run _ _ g).2.notes := noted
      rw [notes_chainMember] at there
      exact answer_failed answered ((List.mem_cons.mp there).resolve_left (by simp))

/-- Whatever failure an act notes is ordinary, or has just escaped, or had been noted before. -/
theorem Act.escapes {tasks : List (FutureId × Routine)} {next : Focus} (steady : w.Steady)
    (act : Act plan w w.focus notes tasks w' next) (stepped : w.step plan = some (w'.focusOn next))
    (failed : (run, .failed h e) ∈ notes) :
    (run, .failed h e) ∈ w.notes ∨ e.fault.nature = .ordinary ∨ w.Escapes plan run e := by
  have noted : (run, .failed h e) ∈ (w'.focusOn next).notes := by
    have there : (run, .failed h e) ∈ w'.notes := act.effect.noted ▸ List.mem_append_left _ failed
    exact there
  generalize w'.focusOn next = v at stepped noted
  -- the failure is that of the node at which the task is: whether it has escaped shows in what the step does there
  have fails := act.fails failed
  generalize here : w.focus = focus at act fails
  cases fails with
  | missed _ ordinary _ _ _ => exact .inr (.inl ordinary)
  | @lost t stack pre loses lost =>
    cases loses with
    | sequential n args =>
      rw [step, here] at stepped
      obtain rfl := Option.some.inj stepped
      exact enterSequential_failed here noted
    | dispatch n args =>
      rw [step, here] at stepped
      obtain rfl := Option.some.inj stepped
      exact enterDispatch_failed steady here noted
    | member call body =>
      cases act with
      | played own _ _ _ => cases own
      | unasked lost' ordinary =>
        obtain ⟨-, -, rfl⟩ := lost'.own failed (by simp)
        exact .inr (.inl ordinary)
      | _ => cases failed
    | returning call o only =>
      cases o with
      | error x =>
        cases act with
        | replayed own _ _ => cases own
        | unreturned lost' =>
          obtain ⟨-, -, rfl⟩ := lost'.own failed (by simp)
          exact .inr (.inr (.awaited here))
      | ok v =>
        rw [step, here] at stepped
        obtain rfl := Option.some.inj stepped
        exact (collectCall_failed noted).imp (fun old => (List.mem_cons.mp old).resolve_left (by simp)) .inl
    | completing call body o =>
      cases o with
      | error x =>
        cases act with
        | replayed own _ _ => cases own
        | uncompleted lost' =>
          obtain ⟨-, -, rfl⟩ := lost'.own failed (by simp)
          exact .inr (.inr (.reported here))
      | ok v =>
        rw [step, here] at stepped
        obtain rfl := Option.some.inj stepped
        by_cases past : w.isSettled run
        · have moot : w.resumeFrame plan t stack v (.completing run call body) =
              (w.log (.discardedResult call.node.name)).leave t (.ok .nothing) stack := if_pos past
          rw [moot] at noted
          exact .inl noted
        · have finishes : w.resumeFrame plan t stack v (.completing run call body) =
              w.finishCall plan run call v.report body t stack := if_neg past
          rw [finishes] at noted
          exact (finishCall_failed (by simpa using past) noted).imp_right .inl

/-- Whatever failure a move notes anew of a run is an ordinary one, or has just escaped. -/
theorem Move.escapes (sound : w.Sound) (m : Move plan w w') (failed : (run, .failed h e) ∈ w'.notes) :
    (run, .failed h e) ∈ w.notes ∨ e.fault.nature = .ordinary ∨ w.step plan = some w' ∧ w.Escapes plan run e := by
  rcases m.outside with stepped | ⟨-, kept, -⟩
  · obtain ⟨notes, noting⟩ := m.noting sound
    have new := noting.noted ▸ failed
    rcases List.mem_append.mp new with new | old
    · cases noting with
      | acted act => exact (act.escapes sound.steady stepped new).imp_right fun way => way.imp_right fun escapes =>
          ⟨stepped, escapes⟩
      | quiet _ => cases new
      | told idle next ends _ =>
        cases ends with
        | quiet _ _ _ => cases new
        | doomed _ _ _ => cases new
        | unheard _ _ => cases List.mem_singleton.mp new
        | rejecting failed only _ _ completed =>
          rcases List.mem_append.mp new with rejection | failure
          · obtain ⟨ms, y, same⟩ := only _ rejection
            cases same
          · obtain ⟨rfl, same⟩ := Prod.mk.inj (List.mem_singleton.mp failure)
            obtain ⟨-, rfl⟩ := Happening.failed.inj same
            exact .inr (.inr ⟨stepped, .belated (.mk idle next failed completed)⟩)
    · exact .inl old
  · exact .inl (kept ▸ failed)

/-- Whether whatever has escaped from actions of a run so far is an ordinary failure. -/
def Tame (plan : Plan) (w : World) (run : RunId) : Prop :=
  ∀ v v' e, Runs plan run v → v.step plan = some v' → Moves plan v' w → v.Escapes plan run e →
    e.fault.nature = .ordinary

/-- A run hears of ordinary failures only if nothing else escapes from its actions. -/
theorem Runs.tame_iff (runs : Runs plan run w) (compiled : plan.tree.Compiled) :
    Tame plan w run ↔ ∀ h e, (run, .failed h e) ∈ w.notes → e.fault.nature = .ordinary := by
  constructor
  · intro tame h e failed
    induction runs with
    | begun before m new known =>
      have recorded := before.failed_recorded compiled ((m.launch new known).noted ▸ failed)
      rw [new] at recorded
      cases recorded
    | @move v v' runs m undisturbed ih =>
      rcases m.escapes runs.reachable.sound failed with old | ordinary | ⟨stepped, escapes⟩
      · exact ih (fun u u' x runs' stepped moves => tame u u' x runs' stepped (moves.tail m)) old
      · exact ordinary
      · exact tame v v' e runs stepped .refl escapes
  · intro ordinary v v' e runs stepped moves escapes
    obtain ⟨u, stepped', ⟨h, noted⟩, -⟩ := escapes.told runs
    obtain rfl := Option.some.inj (stepped.symm.trans stepped')
    have grown := Moves.grown (runs.step stepped).reachable moves
    exact ordinary h e (grown.subset_notes noted)

end World

end Conductor
