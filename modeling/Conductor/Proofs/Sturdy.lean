import Conductor.Proofs.Standstill
import Conductor.Proofs.Verdicts

/-!
# Tasks that fail

A task of a run fails only for a reason: because its run has settled, or because of a failure that is
not ordinary, which the executor hands on as it is. So the driver of a run that is still running is
pending unless such a failure has been noted. Where a run hears of ordinary failures only, and nobody has
cancelled its caller, what a task of it fails with is the very error that the run was rejected with.
-/

namespace Conductor

/-- Whether a frame deals with a failure itself, by noting the failure of its node. -/
def Frame.takes : Frame → Bool
  | .returning _ _ | .completing _ _ _ => true
  | _ => false

/-- Whether a frame waits for chains, or for a body that was told to the run. -/
def Frame.joins : Frame → Bool
  | .joining _ | .ending _ _ _ => true
  | _ => false

namespace World

variable {plan : Plan} {w w' : World} {run other : RunId} {t f g : FutureId} {stack : List Frame} {s : Settlement}
  {aim : FutureId → Aim} {e : Raised} {notes : List Note} {tasks : List (FutureId × Routine)} {o : Outcome}
  {p : Position} {waiting : Option FutureId} {frame : Frame} {q : Purpose} {goal a : Aim}

/-! ### What steps do to purposes and settlements -/

/-- A step changes the purpose of a task that goes on, which is then not to be cancelled, or that comes to
wait, and that of a joint future that counts a child. -/
theorem step_purpose (sound : w.Sound) (stepped : w.step plan = some w') (old : f < w.futures.size)
    (own : w'.purpose? f = some q) :
    w.purpose? f = some q ∨ q = .task .active none false ∨
      (∃ r stack p waiting m, w.focus = .enter f r stack ∧ w.purpose? f = some (.task .active none m) ∧
        q = .task p waiting m) ∨
      ∃ cs k requested, w.purpose? f = some (.joint cs k requested) ∧ q = .joint cs (k + 1) requested := by
  obtain ⟨q₀, own₀⟩ := purpose?_isSome old
  have same (kept : w'.purpose? f = w.purpose? f) : w.purpose? f = some q := kept.symm.trans own
  have moved {t : FutureId} {r : Routine} {stack : List Frame} (p : Position) (waiting : Option FutureId)
      (busy : w.focus = .enter t r stack) (there : (w.setPosition t p waiting).purpose? f = some q) :
      w.purpose? f = some q ∨ (∃ r stack p waiting m, w.focus = .enter f r stack ∧
        w.purpose? f = some (.task .active none m) ∧ q = .task p waiting m) := by
    by_cases mine : f = t
    · subst mine
      obtain ⟨m, active⟩ := (sound.tasks.focus f (by rw [busy]; rfl)).2
      rw [purpose?_setPosition_self active] at there
      exact .inr ⟨r, stack, p, waiting, m, busy, active, (Option.some.inj there).symm⟩
    · exact .inl ((purpose?_setPosition_other p waiting mine).symm.trans there)
  have resumed {w₁ : World} {t : FutureId} {o : Outcome} (purposes : w₁.purpose? f = w.purpose? f)
      (there : (w₁.resumeTask t o).purpose? f = some q) : w.purpose? f = some q ∨ q = .task .active none false := by
    obtain kept | ⟨p, waiting, m, next, n, o', -, mine, -, kept, -⟩ := resumeTask_cases (w := w₁) t o <;>
      rw [kept] at there
    · exact .inl (purposes.symm.trans there)
    · have there' : (w₁.activate t).purpose? f = some q := there
      rw [Tasks.purpose?_activate ⟨m, mine⟩] at there'
      split at there'
      · exact .inr (Option.some.inj there').symm
      · exact .inl (purposes.symm.trans there')
  cases step_stepped sound.steady stepped with
  | acted act =>
    obtain ⟨-, new, adds⟩ := sound.roles.effect act.effect
    exact .inl (same ((adds.purposes f q₀ own₀).trans own₀.symm))
  | @suspended t g stack busy pending =>
    rcases moved (.suspended stack) (some g) busy (purpose?_onSettled.symm.trans own) with same | waits
    · exact .inl same
    · exact .inr (.inr (.inl waits))
  | @yielded t stack busy =>
    rcases moved (.suspended stack) none busy ((purpose?_post _).symm.trans own) with same | waits
    · exact .inl same
    · exact .inr (.inr (.inl waits))
  | @ended t o busy =>
    obtain ⟨s, ends, -, -⟩ := endTask_cases (w := w) t o
    rw [ends] at own
    have there : (w.setPosition t .active none).purpose? f = some q := purpose?_settle.symm.trans own
    by_cases mine : f = t
    · subst mine
      obtain ⟨m, active⟩ := (sound.tasks.focus f (by rw [busy]; rfl)).2
      rw [purpose?_setPosition_self active] at there
      exact .inl (active.trans there)
    · exact .inl ((purpose?_setPosition_other _ _ mine).symm.trans there)
  | @handled j w₁ idle next =>
    have futures := nextJob_futures next
    have purposes := purpose?_congr (f := f) futures
    have rest : Handled j w₁ (w₁.runJob plan j) := sound.steady.handled next
    generalize w₁.runJob plan j = w' at rest own same
    cases rest with
    | effect e _ =>
      obtain ⟨-, new, adds⟩ := (sound.roles.of_nextJob next).effect e
      exact .inl (same ((adds.purposes f q₀ (purposes.trans own₀)).trans own₀.symm))
    | resumed => exact (resumed purposes own).imp_right .inl
    | woken _ =>
      exact (resumed ((purpose?_congr (deliver_futures _)).trans purposes) own).imp_right .inl
    | @counted g c =>
      obtain kept | ⟨cs, k, requested, s, n, -, mine, result⟩ := childEnded_cases (w := w₁) g c
      · exact .inl (same (by rw [kept, purposes]))
      · have there : (w₁.repurpose g (.joint cs (k + 1) requested)).purpose? f = some q := by
          obtain ⟨kept, -⟩ | ⟨s', kept, -, -⟩ := result _ rfl <;> rw [kept] at own
          · exact own
          · exact (purpose?_settle (w := (w₁.repurpose g (.joint cs (k + 1) requested)).raisedTo n)).symm.trans own
        rw [purpose?_repurpose] at there
        split at there
        · rename_i mine'
          subst mine'
          rw [mine] at there
          exact .inr (.inr (.inr ⟨cs, k, requested, purposes.symm.trans mine, (Option.some.inj there).symm⟩))
        · exact .inl (purposes.symm.trans there)
    | freed => exact .inl (same (purpose?_settle.trans purposes))
    | matured n _ => exact .inl (same ((purpose?_settle (w := w₁.raisedTo n)).trans purposes))
    | stopped => exact .inl (same purposes)
  | turned idle next =>
    obtain ⟨_, -, rfl⟩ := nextTurn_cases next
    exact .inl own

/-- A step settles a joint future only by the end of a child, and whoever waits for a body through a future
of its own is only told that the body has ended. -/
theorem step_settles (sound : w.Sound) (stepped : w.step plan = some w') {k : Kind} (own : w.kind? f = some k)
    (sort : (∃ cs, k = .joint cs) ∨ ∃ b, k = .plain (.waiter b)) (before : w.settlement? f = none)
    (after : w'.settlement? f = some s) :
    (∃ c w₁, w.nextJob? = some (.childEnded f c, w₁) ∧ w' = w₁.childEnded f c) ∨ s = .value .nothing := by
  have same (kept : w'.settlement? f = w.settlement? f) :
      (∃ c w₁, w.nextJob? = some (.childEnded f c, w₁) ∧ w' = w₁.childEnded f c) ∨ s = .value .nothing := by
    cases (after.symm.trans kept).trans before
  have effect {u u' : World} {notes : List Note} {tasks : List (FutureId × Routine)} (roles : u.Roles)
      (own : u.kind? f = some k) (e : Effect notes tasks u u') : u'.settlement? f = u.settlement? f := by
    rcases sort with ⟨cs, rfl⟩ | ⟨b, rfl⟩
    · obtain ⟨-, new, adds⟩ := roles.effect e
      obtain ⟨q, there, kind⟩ := Option.map_eq_some_iff.mp own
      refine adds.untouched f q there fun role same => ?_
      subst same
      cases kind
    · exact Detains.effect roles e f b ((Grown.effect e).kinds f _ own)
  have apart {k' : Kind} {g : FutureId} (theirs : w.kind? g = some k') (other : k' ≠ k) : f ≠ g := fun same => by
    subst same
    exact other (Option.some.inj (theirs.symm.trans own))
  cases step_stepped sound.steady stepped with
  | acted act =>
    have kept := effect sound.roles own act.effect
    exact same kept
  | suspended _ _ => exact same (settlement?_onSettled.trans (settlement?_setPosition _ _))
  | yielded _ => exact same ((settlement?_post _).trans (settlement?_setPosition _ _))
  | @ended t o busy =>
    obtain ⟨s', ends, -, -⟩ := endTask_cases (w := w) t o
    obtain ⟨m, active⟩ := (sound.tasks.focus t (by rw [busy]; rfl)).2
    have other : f ≠ t := apart (kind?_of_purpose? active) fun same => by
      rcases sort with ⟨cs, rfl⟩ | ⟨b, rfl⟩ <;> cases same
    refine same ?_
    rw [ends]
    exact (settlement?_settle_other other).trans (settlement?_setPosition _ _)
  | @handled j w₁ idle next =>
    have futures := nextJob_futures next
    have roles := sound.roles.of_nextJob next
    have there := mem_jobs_of_next next
    have rest : Handled j w₁ (w₁.runJob plan j) := sound.steady.handled next
    have same' {u : World} (shown : u = w₁.runJob plan j) (kept : u.settlement? f = w₁.settlement? f) :=
      same ((congrArg (·.settlement? f) shown).symm.trans (kept.trans (settlement?_congr futures)))
    generalize shown : w₁.runJob plan j = w' at rest after same same'
    cases rest with
    | effect e _ => exact same' rfl (effect roles ((kind?_congr futures f).trans own) e)
    | resumed =>
      obtain kept | ⟨_, _, _, _, _, _, -, -, -, kept, -⟩ := resumeTask_cases (w := w₁) _ (.ok .nothing)
      · exact same' rfl (by rw [kept])
      · exact same' rfl (by rw [kept]; exact settlement?_repurpose (w := w₁))
    | @woken u g w₁ s' settled =>
      refine same' rfl ?_
      have delivered := settlement?_congr (f := f) (deliver_futures (w := w₁) s')
      obtain kept | ⟨_, _, _, _, _, _, -, -, -, kept, -⟩ :=
        resumeTask_cases (w := (w₁.deliver s').2) u (w₁.deliver s').1
      · rw [kept, delivered]
      · rw [kept]
        exact (settlement?_repurpose (w := (w₁.deliver s').2)).trans delivered
    | @counted g c =>
      by_cases mine : g = f
      · subst mine
        exact .inl ⟨c, w₁, next, rfl⟩
      · refine same' rfl ?_
        obtain kept | ⟨cs, k', requested, s', n, -, -, result⟩ := childEnded_cases (w := w₁) g c
        · rw [kept]
        · obtain ⟨kept, -⟩ | ⟨s', kept, -, -⟩ := result _ rfl <;> rw [kept]
          · exact settlement?_repurpose
          · exact (settlement?_settle_other (Ne.symm mine)).trans (settlement?_repurpose (w := w₁))
    | @freed g b =>
      rcases settlement?_settle (w := w₁) (f := g) (s := .value .nothing) f with kept | ⟨-, -, now⟩
      · exact same' rfl kept
      · exact .inr (Option.some.inj (after.symm.trans now))
    | @matured g how w₁ s' n _ =>
      have timed : w.kind? g = some (.plain .timed) := sound.roles.settles g how there
      have other : f ≠ g := apart timed fun same => by
        rcases sort with ⟨cs, rfl⟩ | ⟨b, rfl⟩ <;> cases same
      exact same' rfl (settlement?_settle_other other)
    | stopped => exact same' rfl rfl
  | turned idle next =>
    obtain ⟨_, -, rfl⟩ := nextTurn_cases next
    exact same rfl

/-! ### Whom tasks serve -/

theorem Move.serves (sound : w.Sound) (m : Move plan w w') (serves : w'.Serves run t) :
    w.Serves run t ∨ ∃ r, w'.purpose? t = some (.task (.unstarted r) none false) := by
  cases m.turn sound with
  | @acted notes tasks w₁ next act rests =>
    rcases serves with ⟨p, waiting, stood, concerns⟩ | ⟨busy, concerns⟩
    · rcases rests.stands t p waiting stood with old | ⟨r, rfl, rfl, new⟩
      · exact .inl (.inl ⟨p, waiting, old, concerns⟩)
      · obtain ⟨m, own⟩ := stood
        obtain ⟨-, new', adds⟩ := sound.roles.effect act.effect
        obtain ⟨-, -, rfl, -⟩ := adds.begins t _ (act.effect.made _ new).1 own
        exact .inr ⟨r, own⟩
    · exact .inl (.inr ⟨act.task.2.symm.trans busy, act.concerns concerns⟩)
  | @halted _ u r stack waiting busy halts shifts same idle =>
    left
    rcases serves with ⟨p, waiting', stood, concerns⟩ | ⟨busy', -⟩
    · by_cases mine : t = u
      · subst mine
        obtain ⟨rfl, -⟩ := stood.unique shifts.own
        exact .inr ⟨by rw [busy]; rfl, by rw [busy]; exact .inr concerns⟩
      · exact .inl ⟨p, waiting', (shifts.others t _ _ mine).mp stood, concerns⟩
    · simp [idle, Focus.task?] at busy'
  | @ended _ u o busy shifts value idle =>
    left
    rcases serves with ⟨p, waiting', stood, concerns⟩ | ⟨busy', -⟩
    · by_cases mine : t = u
      · subst mine
        obtain ⟨rfl, -⟩ := stood.unique shifts.own
        exact concerns.elim
      · exact .inl ⟨p, waiting', (shifts.others t _ _ mine).mp stood, concerns⟩
    · simp [idle, Focus.task?] at busy'
  | @resumed _ u p waiting o idle stood shifts same heard goesOn =>
    left
    rcases serves with ⟨p', waiting', stood', concerns⟩ | ⟨busy', concerns⟩
    · by_cases mine : t = u
      · subst mine
        obtain ⟨rfl, -⟩ := stood'.unique shifts.own
        exact concerns.elim
      · exact .inl ⟨p', waiting', (shifts.others t _ _ mine).mp stood', concerns⟩
    · left
      rcases goesOn with ⟨r, rfl, ⟨v, -, here⟩ | ⟨e, -, here⟩⟩ | ⟨stack, rfl, here⟩ <;>
        rw [here] at busy' concerns <;> obtain rfl := Option.some.inj busy'
      · exact ⟨_, waiting, stood, concerns.resolve_right (stacks_nil run)⟩
      · exact absurd concerns (stacks_nil run)
      · exact ⟨_, waiting, stood, concerns⟩
  | begun r caller =>
    rcases serves with ⟨p, waiting, stood, concerns⟩ | ⟨busy, concerns⟩
    · obtain ⟨m, own⟩ := stood
      rw [purpose?_newTask] at own
      split at own
      · rename_i latest
        exact .inr ⟨r, (purpose?_newTask r).trans (if_pos latest)⟩
      · exact .inl (.inl ⟨p, waiting, ⟨m, own⟩, concerns⟩)
    · rw [(newTask_sameRuns r).focus] at busy concerns
      exact .inl (.inr ⟨busy, concerns⟩)
  | rested rests focus =>
    left
    rcases serves with ⟨p, waiting, stood, concerns⟩ | ⟨busy, concerns⟩
    · rcases rests.stands t p waiting stood with old | ⟨r, -, -, new⟩
      · exact .inl ⟨p, waiting, old, concerns⟩
      · cases new
    · rw [focus] at busy concerns
      exact .inr ⟨busy, concerns⟩

/-! ### Reasons to fail -/

def Fatal (w : World) (run : RunId) : Prop := ∃ h e, (run, .failed h e) ∈ w.notes ∧ e.fault.isOrdinary = false

/-- Whether a run has heard of ordinary failures only, and its caller has not been cancelled. -/
structure Mannered (w : World) (run : RunId) : Prop where
  ordinary : ∀ h e, (run, .failed h e) ∈ w.notes → e.fault.nature = .ordinary
  own : ∀ o cause, w.outcome? run = some o → w.settlement? o ≠ some (.cancelled cause)

/-- Whether a run has been rejected with an ordinary failure, and that is the very one. -/
structure Final (w : World) (run : RunId) (e : Raised) : Prop where
  ordinary : e.fault.nature = .ordinary
  rejected : ∃ ms error, w.status run = .rejected ms error ∧ error.is e

structure Blamed (w : World) (run : RunId) (e : Raised) : Prop where
  why : w.isSettled run ∨ e.fault.isOrdinary = false ∧ w.Fatal run
  final : w.Mannered run → w.Final run e

def Spent (w : World) (run : RunId) : Settlement → Prop
  | .value _ => True
  | .failed e => w.Blamed run e
  | .cancelled _ => (w.isSettled run ∨ w.Fatal run) ∧ ¬ w.Mannered run

theorem Fatal.grown (fatal : w.Fatal run) (grown : Grown w w') : w'.Fatal run := by
  obtain ⟨h, e, noted, nature⟩ := fatal
  exact ⟨h, e, grown.subset_notes noted, nature⟩

theorem Mannered.before (mannered : w'.Mannered run) (grown : Grown w w') : w.Mannered run where
  ordinary h e noted := mannered.ordinary h e (grown.subset_notes noted)
  own o cause outcome cancelled :=
    mannered.own o cause (grown.outcomes run o outcome) (grown.settlements o _ cancelled)

/-- The caller of a run that is running waits, unless it has been cancelled. -/
theorem Mannered.pending {r : Record} (mannered : w.Mannered run) (verdicts : Verdicts w) (roles : w.Roles)
    (known : w.record? run = some r) (running : r.status = .running) : w.isPending r.outcome := by
  have outcome := Verdicts.outcome_of_record known
  rcases verdicts.running known running with pending | ⟨cause, cancelled⟩
  · obtain ⟨p, own, -⟩ := Option.map_eq_some_iff.mp (roles.outcomes run r.outcome outcome)
    obtain ⟨x, found⟩ := future?_isSome (purpose?_lt own)
    rw [settlement?_of_future? found] at pending
    simp [isPending, found, pending]
  · exact absurd cancelled (mannered.own r.outcome cause outcome)

theorem Final.isSettled (final : w.Final run e) : w.isSettled run := by
  obtain ⟨ms, error, rejected, -⟩ := final.rejected
  rw [World.isSettled, rejected]
  rfl

theorem Final.of_status (final : w.Final run e) (same : w'.status run = w.status run) : w'.Final run e where
  ordinary := final.ordinary
  rejected := by
    rw [same]
    exact final.rejected

theorem Blamed.later (blamed : w.Blamed run e) (after : Later w w') : w'.Blamed run e where
  why := blamed.why.imp (after.settled run) fun ⟨nature, fatal⟩ => ⟨nature, fatal.grown after.grown⟩
  final mannered :=
    have final := blamed.final (mannered.before after.grown)
    final.of_status (after.decided run final.isSettled)

theorem Blamed.effect (blamed : w.Blamed run e) (effect : Effect notes tasks w w') : w'.Blamed run e where
  why := blamed.why.imp effect.settled fun ⟨nature, fatal⟩ => ⟨nature, fatal.grown (.effect effect)⟩
  final mannered := by
    have final := blamed.final (mannered.before (.effect effect))
    rcases effect.status run with same | ⟨running, -, -⟩
    · exact final.of_status same
    · have past := final.isSettled
      rw [isSettled, running] at past
      cases past

theorem Blamed.focusOn (blamed : w.Blamed run e) (focus : Focus) : (w.focusOn focus).Blamed run e where
  why := blamed.why
  final mannered := (blamed.final (mannered.before (.focusOn focus))).of_status rfl

theorem Spent.later (spent : w.Spent run s) (after : Later w w') : w'.Spent run s := by
  cases s with
  | value v => trivial
  | failed e => exact Blamed.later spent after
  | cancelled cause =>
    obtain ⟨why, ill⟩ := spent
    refine ⟨why.imp (after.settled run) fun fatal => fatal.grown after.grown, fun mannered => ill ?_⟩
    exact mannered.before after.grown

theorem isOrdinary_of_cancelled {x : Fault} (nature : x.nature = .cancelled) : x.isOrdinary = false := by
  simp [Fault.isOrdinary, nature]

theorem Spent.blamed (spent : w.Spent run s) (delivers : Delivers (.error e) s) : w.Blamed run e := by
  cases s with
  | value v => cases delivers
  | failed x =>
    obtain rfl : e = x := Except.error.inj delivers
    exact spent
  | cancelled cause =>
    obtain ⟨x, same, nature⟩ := delivers
    obtain rfl := Except.error.inj same
    obtain ⟨why, ill⟩ := spent
    exact ⟨why.imp_right fun fatal => ⟨isOrdinary_of_cancelled nature, fatal⟩, fun mannered => absurd mannered ill⟩

theorem Blamed.spent (blamed : w.Blamed run e) (delivers : Delivers (.error e) s) : w.Spent run s := by
  cases s with
  | value v => trivial
  | failed x =>
    obtain rfl : e = x := Except.error.inj delivers
    exact blamed
  | cancelled cause =>
    obtain ⟨x, same, nature⟩ := delivers
    obtain rfl := Except.error.inj same
    refine ⟨blamed.why.imp_right And.right, fun mannered => ?_⟩
    cases nature.symm.trans (blamed.final mannered).ordinary

theorem Losing.blamed {x : Raised} (losing : Losing run x notes w w' (.error e)) (verdicts : Verdicts w)
    (roles : w.Roles) (known : (w.record? run).isSome)
    (why : (∃ h, (run, .failed h x) ∈ w.notes) ∨ w.Blamed run x) : w'.Blamed run e := by
  have grown := Grown.effect losing.effect
  have final (mannered : w'.Mannered run) : w'.Final run e := by
    have before := mannered.before grown
    have nature : x.fault.nature = .ordinary := by
      rcases why with ⟨h, noted⟩ | blamed
      · exact before.ordinary h x noted
      · exact (blamed.final before).ordinary
    obtain ⟨r, there⟩ := Option.isSome_iff_exists.mp known
    obtain ⟨rfl, rejected⟩ := losing.kept nature r there (before.pending verdicts roles there) e rfl
    exact ⟨nature, rejected⟩
  by_cases ordinary : x.fault.isOrdinary
  · exact ⟨.inl (losing.settles known ordinary), final⟩
  · have fatal : x.fault.isOrdinary = false := by simpa using ordinary
    obtain ⟨-, same⟩ := losing.fatal fatal
    obtain rfl := Except.error.inj same
    refine ⟨?_, final⟩
    rcases why with ⟨h, noted⟩ | blamed
    · exact .inr ⟨fatal, h, e, grown.subset_notes noted, fatal⟩
    · exact (blamed.effect losing.effect).why

theorem Lost.blamed {h : Head} {x : Raised} {pre : List Note}
    (lost : Lost run h x pre t stack w notes w' (.leave t (.error e) stack)) (verdicts : Verdicts w)
    (roles : w.Roles) (known : (w.record? run).isSome) : w'.Blamed run e := by
  cases lost with
  | @mk rejections w₁ _ _ first losing =>
    have noted : Effect [(run, .failed h x)] [] w₁ (w₁.note run (.failed h x)) := .note trivial
    have before := first.trans noted
    exact losing.blamed (verdicts.effect roles before) (roles.effect before).1 ((Grown.effect before).recorded known)
      (.inl ⟨h, List.mem_cons_self⟩)

theorem Lost.fails {h : Head} {x : Raised} {pre : List Note} {next : Focus} {u : FutureId} {rest : List Frame}
    (lost : Lost other h x pre u rest w notes w' next) (mine : other = run)
    (same : Focus.leave t (.error e) stack = next) (verdicts : Verdicts w) (roles : w.Roles)
    (known : (w.record? run).isSome) : w'.Blamed run e := by
  subst mine same
  have lost' := lost
  cases lost
  exact lost'.blamed verdicts roles known

theorem Finished.blamed {call : Call} {body : Option FutureId} {pre : List Note} {next : Focus} {u : FutureId}
    {rest : List Frame} (finished : Finished plan other call body pre u rest w notes w' next) (mine : other = run)
    (same : Focus.leave t (.error e) stack = next) (verdicts : Verdicts w) (roles : w.Roles)
    (known : (w.record? run).isSome) : w'.Blamed run e := by
  cases finished with
  | lost lost => exact lost.fails mine same verdicts roles known
  | moot _ _ => cases (Focus.leave.inj same).2.1
  | followed _ _ _ _ => cases same

/-! ### What tasks rely on -/

/-- Whether what is on top of a stack deals with a failure: user code, a node that fails with it, or a node
that has just been noted to fail with it by what it selects. -/
inductive Taken (w : World) (run : RunId) (e : Raised) : List Frame → Prop where
  | foreign {frame : Frame} {stack : List Frame} (own : frame.run? = none) : Taken w run e (frame :: stack)
  | noting {frame : Frame} {stack : List Frame} (takes : frame.takes) : Taken w run e (frame :: stack)
  | noted {h : Head} {call : Call} {body : Option FutureId} {stack : List Frame} (ordinary : e.fault.isOrdinary)
      (noted : (run, .failed h e) ∈ w.notes) : Taken w run e (.following run call body :: stack)

theorem Taken.grown (taken : w.Taken run e stack) (grown : Grown w w') : w'.Taken run e stack := by
  cases taken with
  | foreign own => exact .foreign own
  | noting takes => exact .noting takes
  | noted ordinary noted => exact .noted ordinary (grown.subset_notes noted)

theorem Taken.absurd (taken : w.Taken run e (frame :: stack)) (own : frame.run? = some other)
    (takes : frame.takes = false) (following : ∀ call body, frame ≠ .following run call body) : False := by
  cases taken with
  | foreign foreign => cases foreign.symm.trans own
  | noting noting => cases noting.symm.trans takes
  | noted _ _ => exact following _ _ rfl

theorem Fits.taken (fits : Fits plan aim w goal a stack) (loose : a = .loose) (own : goal.run? = some run) :
    w'.Taken run e stack := by
  cases fits with
  | base reaches =>
    subst loose
    rcases reaches with rfl | rfl <;> cases own
  | played foreign _ => exact .foreign foreign
  | inside _ _ _ _ _ => exact .noting rfl
  | branches _ _ _ => cases loose
  | _ => cases loose

theorem Ordered.waits (ordered : Ordered plan aim w) (waits : w.Waiting t f stack) :
    ∃ a, Fits plan aim w (aim t) a stack ∧ (a = .loose ∨ a = .success f) := by
  rcases waits with here | stood
  · have focus := ordered.focus
    rw [here] at focus
    obtain ⟨a, opens, fits⟩ := focus
    cases opens with
    | played _ => exact ⟨_, fits, .inl rfl⟩
    | wait _ => exact ⟨_, fits, .inr rfl⟩
  · obtain ⟨a, fits, loose | ⟨g, same, success⟩⟩ := ordered.suspended t stack _ stood
    · exact ⟨a, fits, .inl loose⟩
    · obtain rfl := Option.some.inj same
      exact ⟨a, fits, .inr success⟩

theorem Fits.joined (fits : Fits plan aim w goal a (frame :: stack)) (waits : a = .loose ∨ a = .success f)
    (own : frame.run? = some run) (joins : frame.joins) :
    (∃ members chains, frame = .joining run ∧ w.kind? f = some (.joint chains) ∧ Chained aim w run members chains) ∨
      ∃ call b, frame = .ending run call b ∧ w.kind? f = some (.plain (.waiter b)) := by
  cases fits with
  | joining joint chained rest =>
    obtain other | same := waits
    · cases other
    · obtain rfl := Aim.success.inj same
      obtain rfl := Option.some.inj own
      exact .inl ⟨_, _, rfl, joint, chained⟩
  | ending waiter _ _ _ _ _ _ =>
    obtain other | same := waits
    · cases other
    · obtain rfl := Aim.success.inj same
      obtain rfl := Option.some.inj own
      exact .inr ⟨_, _, rfl, waiter⟩
  | played foreign _ => cases foreign.symm.trans own
  | _ => cases joins

theorem Loyal.one (loyal : Loyal aim w) (busy : w.focus.task? = some t) (concerns : w.focus.Concerns other)
    (own : (aim t).run? = some run) : other = run :=
  Option.some.inj ((loyal.focus t other busy concerns).symm.trans own)

theorem Loyal.recorded (loyal : Loyal aim w) (own : (aim t).run? = some run) : (w.record? run).isSome := by
  obtain ⟨o, outcome, -⟩ := loyal.known t run own
  exact recorded_of_outcome outcome

structure Sturdy (aim : FutureId → Aim) (run : RunId) (w : World) : Prop where
  calm : ∀ t p waiting m, w.Serves run t → w.purpose? t = some (.task p waiting m) → m = false
  ended : ∀ t s, (aim t).run? = some run → w.kind? t = some .task → w.settlement? t = some s → w.Spent run s
  waits : ∀ t f frame stack s, w.Waiting t f (frame :: stack) → frame.run? = some run → frame.joins →
    w.settlement? f = some s → w.Spent run s
  unasked : ∀ t g stack cs k requested, w.Waiting t g (.joining run :: stack) →
    w.purpose? g = some (.joint cs k requested) → requested = false
  leaving : ∀ t e stack, w.focus = .leave t (.error e) stack → (aim t).run? = some run →
    w.Taken run e stack ∨ w.Blamed run e

/-- A task of a run that is told of what it waits for fails for a reason, or somebody deals with that. -/
theorem Sturdy.told (sturdy : Sturdy aim run w) (ordered : Ordered plan aim w) (waits : w.Waiting t f stack)
    (own : (aim t).run? = some run) (loyal : ∀ other, Stacks other stack → other = run)
    (settled : w.settlement? f = some s) (delivers : Delivers (.error e) s) : w.Taken run e stack ∨ w.Blamed run e := by
  obtain ⟨a, fits, sort⟩ := ordered.waits waits
  cases stack with
  | nil =>
    cases fits with
    | base reaches =>
      rcases sort with rfl | rfl <;> rcases reaches with there | there <;> rw [there] at own <;> cases own
  | cons frame rest =>
    cases belongs : frame.run? with
    | none => exact .inl (.foreign belongs)
    | some other =>
      obtain rfl := loyal other ⟨frame, List.mem_cons_self, belongs⟩
      cases joins : frame.joins with
      | true => exact .inr ((sturdy.waits t f frame rest s waits belongs joins settled).blamed delivers)
      | false =>
        refine .inl (.noting ?_)
        cases fits with
        | played foreign _ => cases foreign.symm.trans belongs
        | inside _ _ _ _ _ => rfl
        | outside _ _ _ _ _ _ _ _ => rfl
        | completing _ _ _ => rfl
        | joining _ _ _ => cases joins
        | ending _ _ _ _ _ _ _ => cases joins
        | _ => rcases sort with other | other <;> cases other

/-- Whether a task is at work on a branch list, a node, a group or a member of a run, on top of a stack. -/
inductive AtWork (run : RunId) (t : FutureId) (stack : List Frame) : Focus → Prop where
  | list {place : Path} {position : Nat} {entries : List Entry} :
      AtWork run t stack (.enter t (.branches run place position entries) stack)
  | node {n : Node} : AtWork run t stack (.enter t (.sequential run n) stack)
  | group {place : Path} {position : Nat} {members : List Entry} {chains : List FutureId} :
      AtWork run t stack (.enter t (.dispatch run place position members chains) stack)
  | member {call : Call} {body : Option FutureId} : AtWork run t stack (.enter t (.member run call body) stack)
  | within {o : Outcome} {frame : Frame} (own : frame.run? = some run) (other : frame ≠ .drive run) :
      AtWork run t stack (.leave t o (frame :: stack))

/-- An act lets a task of a run fail only for a reason, or it is at work on none of the parts of the run and somebody
deals with that. -/
theorem Act.blamed (reached : Reachable plan w) (ordered : Ordered plan aim w) (loyal : Loyal aim w)
    (sturdy : Sturdy aim run w) (act : Act plan w w.focus notes tasks w' (.leave t (.error e) stack))
    (own : (aim t).run? = some run) :
    w'.Taken run e stack ∧ ¬ AtWork run t stack w.focus ∨ w'.Blamed run e := by
  have busy : w.focus.task? = some t := act.task.2.symm
  have effect := act.effect
  have one {other : RunId} (concerns : w.focus.Concerns other) : other = run := loyal.one busy concerns own
  have known := loyal.recorded own
  have verdicts := reached.verdicts
  have roles := reached.sound.roles
  have focus := ordered.focus
  have leaving {x : Raised} {frames : List Frame} (here : w.focus = .leave t (.error x) frames) :=
    sturdy.leaving t x frames here own
  have follows {n : Node} {r : Result} {run' : RunId} {stack : List Frame}
      (here : w.focus = .enter t (.follow run' n r) stack) := reached.follows here
  have told {f : FutureId} {stack : List Frame} {s : Settlement} (here : w.focus = .enter t (.wait f) stack)
      (settled : w.settlement? f = some s) (delivers : Delivers (.error e) s) : w.Taken run e stack ∨ w.Blamed run e :=
    sturdy.told ordered (.inl here) own (fun other stacked => one (by rw [here]; exact .inr stacked)) settled delivers
  have proper (f : FutureId) (s : Settlement) := reached.sound.proper.settlements f s
  generalize here : w.focus = focus' at act one focus leaving follows told ⊢
  generalize same : Focus.leave t (.error e) stack = next at act
  cases act with
  | played foreign other _ plays =>
    obtain ⟨a, opens, fits⟩ := focus
    obtain rfl := opens_foreign opens foreign other
    obtain rfl := Option.some.inj ((congrArg Focus.task? here).symm.trans busy)
    cases plays with
    | left _ =>
      obtain ⟨-, -, rfl⟩ := Focus.leave.inj same
      exact .inl ⟨fits.taken rfl own, fun working => by cases working <;> cases foreign⟩
    | entered _ _ _ _ _ => cases same
  | replayed foreign _ plays =>
    obtain ⟨a, -, fits⟩ := focus
    obtain rfl := Option.some.inj ((congrArg Focus.task? here).symm.trans busy)
    cases plays with
    | left _ =>
      obtain ⟨-, -, rfl⟩ := Focus.leave.inj same
      refine .inl ⟨(fits_foreign_frame fits foreign).taken rfl own, fun working => ?_⟩
      cases working with
      | within mine _ => cases foreign.symm.trans mine
    | entered _ _ _ _ _ => cases same
  | @delivered t' f stack' s settled =>
    obtain ⟨rfl, outcome, rfl⟩ := Focus.leave.inj same
    have delivers := deliver_delivers (w := w) (proper f s settled)
    rw [← outcome] at delivers
    refine (told rfl settled delivers).imp (fun taken => ⟨taken.grown (.effect effect), fun working => ?_⟩)
      fun blamed => blamed.effect effect
    cases working
  | sequenced _ _ finished => exact .inr (finished.blamed (one (.inl rfl)) same verdicts roles known)
  | undispatched _ lost => exact .inr (lost.fails (one (.inl rfl)) same verdicts roles known)
  | unasked lost => exact .inr (lost.fails (one (.inl rfl)) same verdicts roles known)
  | returned finished => exact .inr (finished.blamed (one (stacks_cons.mpr (.inl rfl))) same verdicts roles known)
  | completed finished => exact .inr (finished.blamed (one (stacks_cons.mpr (.inl rfl))) same verdicts roles known)
  | unreturned lost => exact .inr (lost.fails (one (stacks_cons.mpr (.inl rfl))) same verdicts roles known)
  | uncompleted lost => exact .inr (lost.fails (one (stacks_cons.mpr (.inl rfl))) same verdicts roles known)
  | @missed _ other node _ _ _ _ ordinary _ _ =>
    obtain rfl : other = run := one (.inl rfl)
    obtain ⟨rfl, outcome, rfl⟩ := Focus.leave.inj same
    obtain rfl := Except.error.inj outcome
    obtain ⟨call, body, rest, -, rfl⟩ := follows rfl
    have noted : (other, .failed node.head e) ∈ w'.notes := by
      rw [effect.noted]
      exact List.mem_cons_self
    exact .inl ⟨.noted (isOrdinary_of_nature ordinary) noted, fun working => by cases working⟩
  | resolved _ _ _ settles refuses =>
    obtain rfl := one (stacks_cons.mpr (.inl rfl))
    obtain ⟨rfl, rfl, rfl⟩ := Focus.leave.inj same
    -- the caller is gone, which only its cancellation brings about before the run has settled
    obtain ⟨r, there, running, past⟩ := refuses e rfl
    refine .inr ⟨.inl (settles known), fun mannered => ?_⟩
    cases past.symm.trans ((mannered.before (.effect effect)).pending verdicts roles there running)
  | rejected losing =>
    obtain rfl := one (stacks_cons.mpr (.inl rfl))
    obtain ⟨rfl, rfl, rfl⟩ := Focus.leave.inj same
    have blamed := (leaving rfl).resolve_left fun taken => taken.absurd rfl rfl (by simp)
    exact .inr (losing.blamed verdicts roles known (.inr blamed))
  | unfollowed losing =>
    obtain rfl := one (stacks_cons.mpr (.inl rfl))
    obtain ⟨rfl, rfl, rfl⟩ := Focus.leave.inj same
    refine .inr (losing.blamed verdicts roles known ((leaving rfl).imp_left fun taken => ?_))
    cases taken with
    | foreign own => cases own
    | noting takes => cases takes
    | noted _ noted => exact ⟨_, noted⟩
  | unfinished losing =>
    obtain rfl := one (stacks_cons.mpr (.inl rfl))
    obtain ⟨rfl, rfl, rfl⟩ := Focus.leave.inj same
    have blamed := (leaving rfl).resolve_left fun taken => taken.absurd rfl rfl (by simp)
    exact .inr (losing.blamed verdicts roles known (.inr blamed))
  | abandoned =>
    obtain ⟨rfl, outcome, rfl⟩ := Focus.leave.inj same
    obtain rfl := Except.error.inj outcome
    exact .inr ((leaving rfl).resolve_left fun taken => taken.absurd rfl rfl (by simp))
  | ungathered =>
    obtain ⟨rfl, outcome, rfl⟩ := Focus.leave.inj same
    obtain rfl := Except.error.inj outcome
    exact .inr ((leaving rfl).resolve_left fun taken => taken.absurd rfl rfl (by simp))
  | _ => cases same

theorem Opens.belongs {r : Routine} (opens : Opens plan aim w r a) (own : a.run? = some run) :
    r.run? = some run := by
  cases opens with
  | played _ => cases own
  | wait _ => cases own
  | branches _ spans => cases spans <;> exact own
  | _ => exact own

/-- A task of a run that goes on from something else has something to do for the run. -/
theorem Fits.stacked (fits : Fits plan aim w goal a stack) (foreign : a.run? = none) (own : goal.run? = some run) :
    ∃ other, Stacks other stack := by
  induction fits with
  | base reaches =>
    rcases reaches with rfl | rfl
    · cases foreign.symm.trans own
    · cases own
  | played _ _ ih =>
    obtain ⟨other, frame, member, belongs⟩ := ih rfl
    exact ⟨other, frame, List.mem_cons_of_mem _ member, belongs⟩
  | _ => exact ⟨_, _, List.mem_cons_self, rfl⟩

/-! ### Moves -/

namespace Sturdy

variable (sturdy : Sturdy aim run w) (reached : Reachable plan w) (m : Move plan w w')
include sturdy reached m

theorem calm_move {asked : Bool} (undisturbed : Undisturbed plan run w w') (serves : w'.Serves run t)
    (own : w'.purpose? t = some (.task p waiting asked)) : asked = false := by
  have sound := reached.sound
  rcases m.serves sound serves with before | ⟨r, new⟩
  · have old : t < w.futures.size := by
      rcases before with ⟨p, waiting, stood, -⟩ | ⟨busy, -⟩
      · exact stood.lt
      · exact (sound.tasks.focus t busy).2.lt
    rcases undisturbed.lets with stepped | lets
    · obtain same | same | ⟨r, stack, p', waiting', asked', -, active, same⟩ | ⟨cs, k, requested, -, same⟩ :=
        step_purpose sound stepped old own
      · exact sturdy.calm t p waiting asked before same
      · cases same
        rfl
      · cases same
        exact sturdy.calm t _ _ asked before active
      · cases same
    · exact sturdy.calm t p waiting asked before ((lets.tasks t before).symm.trans own)
  · cases new.symm.trans own
    rfl

theorem unasked_move {cs : List FutureId} {k : Nat} {requested : Bool} (undisturbed : Undisturbed plan run w w')
    (waits : w'.Waiting t g (.joining run :: stack)) (own : w'.purpose? g = some (.joint cs k requested)) :
    requested = false := by
  have sound := reached.sound
  rcases m.waits sound waits with old | ⟨notes, tasks, w₁, act, rfl⟩
  · rcases undisturbed.lets with stepped | lets
    · obtain same | same | ⟨r, stack, p', waiting', asked', -, -, same⟩ | ⟨cs', k', requested', joint, same⟩ :=
        step_purpose sound stepped (reached.wakes.known t g _ old) own
      · exact sturdy.unasked t g stack cs k requested old same
      · cases same
      · cases same
      · cases same
        exact sturdy.unasked t g stack cs k' requested old joint
    · exact sturdy.unasked t g stack cs k requested old ((lets.waits g ⟨t, _, stack, rfl, old⟩).1.symm.trans own)
  · have own' : w₁.purpose? g = some (.joint cs k requested) := own
    cases act.waitsFor with
    | timed timed => cases timed.symm.trans (kind?_of_purpose? own')
    | joined here joint empty new =>
      cases joint.symm.trans own'
      rfl

omit m in
/-- A group whose end is settled by a chain of it has a reason of that chain. -/
theorem counted {members : List Entry} {chains : List FutureId} {c : FutureId} {w₁ : World}
    (waits : w.Waiting t f (.joining run :: stack)) (joint : w.kind? f = some (.joint chains))
    (chained : Chained aim w run members chains) (next : w.nextJob? = some (.childEnded f c, w₁))
    (before : w.settlement? f = none) (settled : (w₁.childEnded f c).settlement? f = some s) : w.Spent run s := by
  have futures := nextJob_futures next
  have pending : w₁.settlement? f = none := (settlement?_congr futures).trans before
  obtain ⟨cs, k, ⟨requested, own⟩, member⟩ :=
    reached.sound.joints.aimed f c (mem_jobs_of_next next)
  obtain rfl : cs = chains := by simpa [Purpose.kind] using (kind?_of_purpose? own).symm.trans joint
  -- nobody asks the group to be cancelled, so it ends as its child has ended
  obtain rfl := sturdy.unasked t f stack cs k requested waits own
  obtain ⟨entry, -, aimed, task⟩ := chained.of_mem member
  have own₁ := (purpose?_congr futures).trans own
  obtain same | ⟨cs', k', requested', child, n, ended, own', result⟩ := childEnded_cases (w := w₁) f c
  · cases (settled.symm.trans (congrArg (·.settlement? f) same)).trans pending
  obtain ⟨rfl, rfl, rfl⟩ := by simpa using own₁.symm.trans own'
  obtain ⟨same, -⟩ | ⟨end', same, -, concludes⟩ := result _ rfl
  · rw [same] at settled
    cases (settled.symm.trans settlement?_repurpose).trans pending
  · have child' := (settlement?_congr futures).symm.trans ended
    have spent := sturdy.ended c child (by rw [aimed]; rfl) task child'
    have proper := reached.sound.proper.settlements c child child'
    have mine : end' = s := by
      rw [same] at settled
      rcases settlement?_settle (w := (w₁.repurpose f (.joint cs (k + 1) false)).raisedTo n) (f := f) (s := end') f with
        kept | ⟨-, -, now⟩
      · cases ((settled.symm.trans kept).trans (settlement?_repurpose (w := w₁))).trans pending
      · exact Option.some.inj (now.symm.trans settled)
    subst mine
    cases end' with
    | value _ => trivial
    | cancelled _ => exact concludes.elim
    | failed e =>
      rcases concludes with rfl | ⟨⟨cause, rfl⟩ | asked, nature⟩
      · exact spent
      · obtain ⟨why, ill⟩ := spent
        exact ⟨why.imp_right fun fatal => ⟨isOrdinary_of_cancelled (nature proper), fatal⟩,
          fun mannered => absurd mannered ill⟩
      · cases asked

variable (after : Later w w')
include after

theorem ended_move (own : (aims aim w w' t).run? = some run) (task : w'.kind? t = some .task)
    (settled : w'.settlement? t = some s) : w'.Spent run s := by
  cases before : w.settlement? t with
  | some s' =>
    obtain rfl := Option.some.inj ((after.grown.settlements t s' before).symm.trans settled)
    have old : t < w.futures.size := settlement?_lt before
    rw [aims_old old] at own
    exact (sturdy.ended t s' own (after.grown.kind_of_lt old task) before).later after
  | none =>
    have same (kept : w'.settlement? t = w.settlement? t) : w'.Spent run s := by
      cases (settled.symm.trans kept).trans before
    cases m.turn reached.sound with
    | acted act rests => exact same (rests.settled t task)
    | halted _ _ _ kept _ => exact same (kept t)
    | @ended _ u o busy shifts value idle delivers =>
      by_cases mine : t = u
      · subst mine
        obtain ⟨s', settled', delivers⟩ := delivers
        obtain rfl := Option.some.inj (settled'.symm.trans settled)
        have lt := (reached.sound.tasks.focus t (by rw [busy]; rfl)).2.lt
        rw [aims_old lt] at own
        cases o with
        | ok v =>
          obtain rfl := delivers.value rfl
          trivial
        | error e => exact (((sturdy.leaving t e [] busy own).resolve_left nofun).spent delivers).later after
      · exact same (shifts.settled t mine)
    | resumed _ _ _ kept _ _ => exact same (kept t)
    | begun r caller => exact same (settlement?_newTask r)
    | rested rests _ => exact same (rests.settled t task)

variable (ordered : Ordered plan aim w)
include ordered

theorem waits_move (undisturbed : Undisturbed plan run w w') (ordered' : Ordered plan (aims aim w w') w')
    (waits : w'.Waiting t f (frame :: stack)) (own : frame.run? = some run) (joins : frame.joins)
    (settled : w'.settlement? f = some s) : w'.Spent run s := by
  have sound := reached.sound
  rcases m.waits sound waits with old | ⟨notes, tasks, w₁, act, rfl⟩
  · cases before : w.settlement? f with
    | some s' =>
      obtain rfl := Option.some.inj ((after.grown.settlements f s' before).symm.trans settled)
      exact (sturdy.waits t f frame stack s' old own joins before).later after
    | none =>
      rcases undisturbed.lets with stepped | lets
      · obtain ⟨a, fits, sort⟩ := ordered.waits old
        -- the end of a chain settles a group, and the end of a body only lets its waiter go on
        obtain ⟨members, chains, rfl, joint, chained⟩ | ⟨call, b, rfl, waiter⟩ := fits.joined sort own joins
        · rcases step_settles sound stepped joint (.inl ⟨_, rfl⟩) before settled with ⟨c, w₁, next, rfl⟩ | rfl
          · exact (sturdy.counted reached old joint chained next before settled).later after
          · trivial
        · rcases step_settles sound stepped waiter (.inr ⟨_, rfl⟩) before settled with ⟨c, w₁, next, -⟩ | rfl
          · obtain ⟨cs, k, joins', -⟩ := sound.joints.aimed f c (mem_jobs_of_next next)
            obtain ⟨requested, joint⟩ := joins'
            cases (kind?_of_purpose? joint).symm.trans waiter
          · trivial
      · cases (settled.symm.trans (lets.waits f ⟨t, frame, stack, own, old⟩).2).trans before
  · have settled' : w₁.settlement? f = some s := settled
    obtain ⟨a, fits, sort⟩ := ordered'.waits waits
    have kinds := fits.joined sort own joins
    cases act.waitsFor with
    | timed timed =>
      obtain ⟨-, chains, -, joint, -⟩ | ⟨-, b, -, waiter⟩ := kinds
      · cases timed.symm.trans joint
      · cases timed.symm.trans waiter
    | outcome => cases joins
    | joined here joint empty new =>
      obtain rfl := empty s settled'
      trivial
    | report here report => cases joins
    | lingering here pending new => cases pending.symm.trans settled'

theorem leaving_move (loyal : Loyal aim w) (here : w'.focus = .leave t (.error e) stack)
    (own : (aims aim w w' t).run? = some run) : w'.Taken run e stack ∨ w'.Blamed run e := by
  have sound := reached.sound
  have kept (old : w'.focus = w.focus) : w'.Taken run e stack ∨ w'.Blamed run e := by
    have here' := old.symm.trans here
    have lt := (sound.tasks.focus t (by rw [here']; rfl)).2.lt
    rw [aims_old lt] at own
    exact (sturdy.leaving t e stack here' own).imp (fun taken => taken.grown after.grown) fun blamed =>
      blamed.later after
  cases m.turn sound with
  | @acted notes tasks w₁ next act rests =>
    obtain rfl : next = .leave t (.error e) stack := here
    have lt := (sound.tasks.focus t act.task.2.symm).2.lt
    rw [aims_old lt] at own
    exact (act.blamed reached ordered loyal sturdy own).imp (fun ⟨taken, _⟩ => taken.grown (.focusOn _))
      fun blamed => blamed.focusOn _
  | halted _ _ _ _ idle => cases idle.symm.trans here
  | ended _ _ _ idle => cases idle.symm.trans here
  | @resumed _ u p waiting o idle stood shifts same heard goesOn told clear =>
    have calm (concerns : p.Concerns run) : w.Tells o waiting := by
      obtain ⟨asked, purpose⟩ := stood
      obtain rfl := sturdy.calm u p waiting asked (.inl ⟨p, waiting, ⟨asked, purpose⟩, concerns⟩) purpose
      exact told purpose
    rcases goesOn with ⟨r, rfl, ⟨v, -, focus⟩ | ⟨x, failed, focus⟩⟩ | ⟨stack', rfl, focus⟩
    · cases focus.symm.trans here
    · -- a task that has not begun is told nothing
      obtain ⟨rfl, rfl, rfl⟩ := by simpa using focus.symm.trans here
      rw [aims_old stood.lt] at own
      have tells := calm ((ordered.unstarted u r waiting stood).belongs own)
      obtain rfl := reached.wakes.unstarted u r waiting stood
      cases tells
    · obtain ⟨rfl, rfl, rfl⟩ := by simpa using focus.symm.trans here
      rw [aims_old stood.lt] at own
      obtain ⟨a, fits, sort⟩ := ordered.suspended u stack' waiting stood
      have mine (other : RunId) (stacked : Stacks other stack') : other = run :=
        Option.some.inj ((loyal.stands u _ _ other stood stacked).symm.trans own)
      obtain ⟨other, stacked⟩ := fits.stacked (by rcases sort with rfl | ⟨f, -, rfl⟩ <;> rfl) own
      have tells := calm (mine other stacked ▸ stacked)
      cases waiting with
      | none => cases tells
      | some f =>
        obtain ⟨s, settled, delivers⟩ := tells
        exact (sturdy.told ordered (.inr stood) own mine settled delivers).imp (fun taken => taken.grown after.grown)
          fun blamed => blamed.later after
  | begun r caller => exact kept (newTask_sameRuns r).focus
  | rested rests focus => exact kept focus

/-- However the machine moves on, the tasks of a run that is left alone fail only for a reason. -/
theorem move (loyal : Loyal aim w) (undisturbed : Undisturbed plan run w w')
    (ordered' : Ordered plan (aims aim w w') w') : Sturdy (aims aim w w') run w' where
  calm _ _ _ _ serves own := sturdy.calm_move reached m undisturbed serves own
  ended _ _ own task settled := sturdy.ended_move reached m after own task settled
  waits _ _ _ _ _ waits own joins settled :=
    sturdy.waits_move reached m after ordered undisturbed ordered' waits own joins settled
  unasked _ _ _ _ _ _ waits own := sturdy.unasked_move reached m undisturbed waits own
  leaving _ _ _ here own := sturdy.leaving_move reached m after ordered loyal here own

end Sturdy

theorem Launch.only (launch : Launch run w w') (loyal : Loyal aim w') (own : (aim t).run? = some run)
    (there : t < w'.futures.size) : t = w.futures.size + 1 := by
  obtain ⟨o, outcome, later⟩ := loyal.known t run own
  obtain rfl := Option.some.inj (launch.outcome.symm.trans outcome)
  rw [launch.size] at there
  exact Nat.le_antisymm (Nat.lt_succ_iff.mp there) later

/-- No task of a run that has just begun stands anywhere but at its beginning. -/
theorem Launch.begins {p : Position} {waiting : Option FutureId} (launch : Launch run w w') (loyal : Loyal aim w')
    (own : (aim t).run? = some run) (stood : w'.Stands t p waiting) : p = .unstarted (.drive run) := by
  obtain rfl := launch.only loyal own stood.lt
  exact (stood.unique ⟨_, launch.driver⟩).1

theorem Launch.sturdy (launch : Launch run w w') (sound : w'.Sound) (loyal : Loyal aim w') : Sturdy aim run w' := by
  have never {t f : FutureId} {frame : Frame} {stack : List Frame} (waits : w'.Waiting t f (frame :: stack))
      (belongs : frame.run? = some run) : False := by
    rcases waits with here | stood
    · have busy : w'.focus.task? = some t := by rw [here]; rfl
      have own := loyal.focus t run busy (by rw [here]; exact .inr ⟨frame, List.mem_cons_self, belongs⟩)
      cases launch.begins loyal own (sound.tasks.focus t busy).2
    · cases launch.begins loyal (loyal.stands t _ _ run stood ⟨frame, List.mem_cons_self, belongs⟩) stood
  refine ⟨fun t p waiting asked serves own => ?_, fun t s own task settled => ?_,
    fun t f frame stack s waits belongs _ _ => (never waits belongs).elim,
    fun t g stack cs k requested waits _ => (never waits rfl).elim, fun t e stack here own => ?_⟩
  · have mine : (aim t).run? = some run := by
      rcases serves with ⟨p, waiting, stood, concerns⟩ | ⟨busy, concerns⟩
      · exact loyal.stands t p waiting run stood concerns
      · exact loyal.focus t run busy concerns
    obtain rfl := launch.only loyal mine (purpose?_lt own)
    cases launch.driver.symm.trans own
    rfl
  · obtain rfl := launch.only loyal own (kind?_lt task)
    cases launch.pending.symm.trans settled
  · cases launch.begins loyal own (sound.tasks.focus t (by rw [here]; rfl)).2

namespace Runs

variable (runs : Runs plan run w) (compiled : plan.tree.Compiled)
include runs compiled

/-- The tasks of a run go on to the aims that they began with, and fail only for a reason. -/
theorem sturdy : ∃ aim, Ordered plan aim w ∧ Loyal aim w ∧ Sturdy aim run w ∧
    ∃ o, w.outcome? run = some o ∧ w.kind? (o + 1) = some .task ∧ aim (o + 1) = .whole run := by
  induction runs with
  | begun before m new known =>
    have launch := m.launch new known
    have reached := before.move m
    obtain ⟨aim, ordered, loyal⟩ := reached.loyal compiled
    refine ⟨aim, ordered, loyal, launch.sturdy reached.sound loyal, _, launch.outcome,
      kind?_of_purpose? launch.driver, ?_⟩
    have opens := ordered.unstarted _ _ _ ⟨_, launch.driver⟩
    generalize aim _ = a at opens
    cases opens with
    | played own => cases own
    | drive _ => rfl
  | move runs m undisturbed ih =>
    obtain ⟨aim, ordered, loyal, sturdy, o, outcome, task, whole⟩ := ih
    have reached := runs.reachable
    have grown := m.grown reached.sound.steady
    have ordered' := ordered.move reached compiled m
    exact ⟨_, ordered', loyal.move reached m,
      sturdy.move reached m (m.later reached compiled) ordered loyal undisturbed ordered', o,
      grown.outcomes run o outcome, grown.kinds _ _ task, (aims_old (kind?_lt task)).trans whole⟩

/-- When nothing is left to do, user code owes something to a run that is still running, unless a failure has
been noted that is not ordinary. -/
theorem owed (done : w.step plan = none) (running : w.isSettled run = false) (clear : ¬ w.Fatal run) :
    ∃ n, w.Owes run n := by
  obtain ⟨aim, ordered, loyal, sturdy, o, outcome, task, whole⟩ := runs.sturdy compiled
  refine runs.owes done compiled ordered loyal (by rw [whole]; rfl) task ?_
  by_contra past
  obtain ⟨s, settled⟩ := Option.ne_none_iff_exists'.mp past
  have settles : w.isSettled run := by
    have spent := sturdy.ended _ s (by rw [whole]; rfl) task settled
    cases s with
    | value v =>
      have holds := ordered.succeeded _ task ⟨v, settled⟩
      rwa [whole] at holds
    | failed e => exact (Blamed.why spent).resolve_right fun ⟨_, fatal⟩ => clear fatal
    | cancelled cause => exact spent.1.resolve_right clear
  simp [running] at settles

end Runs

end World

end Conductor
