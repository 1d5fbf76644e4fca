import Conductor.Proofs.Reach

/-!
# The lanes of the queue

A job that waits for a future stands among the callbacks of that future until it settles, and then in
the queue of its loop. Lanes are only appended to and taken from the front, so the notice of a body's
end stays before everything that was asked for later. The jobs of a closed loop are lost for good.
-/

namespace Conductor

/-- Whether a job frees somebody who waits for a future through another one. -/
def Job.IsRelease (f : FutureId) (j : Job) : Prop := ∃ g, j = .release g f

def Job.IsNotice (f : FutureId) (j : Job) : Prop := ∃ run node c explicit, j = .bodyEnded run node c explicit f

def Job.InOrder (j k : Job) : Prop := ∀ f, j.IsRelease f → ¬ k.IsNotice f

theorem Job.inOrder_of_source {j k : Job} (other : ∀ f, j.source? = some f → k.source? ≠ some f) :
    j.InOrder k := by
  rintro f ⟨g, rfl⟩ ⟨run, node, c, explicit, rfl⟩
  exact other f rfl rfl

theorem Job.inOrder_of_free {j k : Job} (free : k.source? = none) : j.InOrder k :=
  Job.inOrder_of_source fun f _ => by simp [free]

/-- A lane whose jobs wait for futures that fit, and stand in order. -/
structure Lane (fits : FutureId → Prop) (l : List Job) : Prop where
  sources : ∀ j ∈ l, ∀ f, j.source? = some f → fits f
  order : l.Pairwise Job.InOrder

namespace Lane

variable {fits fits' : FutureId → Prop} {l l' : List Job} {j : Job}

theorem nil : Lane fits [] := ⟨by simp, List.Pairwise.nil⟩

theorem mono (h : Lane fits l) (weaker : ∀ f, fits f → fits' f) : Lane fits' l :=
  ⟨fun j member f waits => weaker f (h.sources j member f waits), h.order⟩

theorem sublist (h : Lane fits l) (part : l'.Sublist l) : Lane fits l' :=
  ⟨fun j member => h.sources j (part.subset member), h.order.sublist part⟩

theorem append (h : Lane fits l) (h' : Lane fits l') (order : ∀ j ∈ l, ∀ k ∈ l', j.InOrder k) :
    Lane fits (l ++ l') := by
  refine ⟨fun j member => ?_, List.pairwise_append.mpr ⟨h.order, h'.order, order⟩⟩
  rcases List.mem_append.mp member with old | new
  · exact h.sources j old
  · exact h'.sources j new

theorem single (own : ∀ f, j.source? = some f → fits f) : Lane fits [j] := by
  refine ⟨fun k member => ?_, List.pairwise_singleton _ _⟩
  obtain rfl := List.mem_singleton.mp member
  exact own

theorem of_free (free : ∀ j ∈ l, j.source? = none) : Lane fits l := by
  refine ⟨fun j member f waits => ?_, ?_⟩
  · rw [free j member] at waits
    cases waits
  · exact List.pairwise_of_forall_mem_list fun j _ k member => Job.inOrder_of_free (free k member)

end Lane

namespace World

def callbacks? (w : World) (f : FutureId) : Option (List Job) := (w.future? f).map (·.callbacks)

structure Lanes (w : World) : Prop where
  ready : Lane (fun f => (w.settlement? f).isSome ∧ w.loop? f = some w.agenda.loop) w.agenda.ready
  parked : Lane (fun f => (w.settlement? f).isSome ∧ w.loop? f = some 0) w.agenda.parked
  away : w.agenda.parked ≠ [] → w.agenda.loop ≠ 0
  timers : ∀ t ∈ w.agenda.timers, t.job.source? = none
  callbacks : ∀ g js, w.callbacks? g = some js →
    Lane (· = g) js ∧ (js ≠ [] → w.settlement? g = none)

inductive Motion : World → World → Prop where
  | still {w w' : World} (futures : w'.futures = w.futures) (loop : w'.agenda.loop = w.agenda.loop)
      (ready : w'.agenda.ready = w.agenda.ready) (parked : w'.agenda.parked = w.agenda.parked)
      (timers : w'.agenda.timers = w.agenda.timers) : Motion w w'
  | posted {w : World} {j : Job} (loop : Nat) (free : j.source? = none) : Motion w (w.post loop j)
  | scheduled {w : World} {j : Job} (ticks : Nat) (free : j.source? = none) :
      Motion w (w.schedule ticks j)
  | made {w : World} (purpose : Purpose) : Motion w (w.newFuture purpose).2
  | settled {w : World} (f : FutureId) (s : Settlement) : Motion w (w.settle f s)
  | called {w : World} {f : FutureId} {j : Job} (own : ∀ g, j.source? = some g → g = f)
      (order : ∀ k ∈ w.jobs, k.InOrder j) : Motion w (w.onSettled f j)
  | repurposed {w : World} (f : FutureId) (p : Purpose) : Motion w (w.repurpose f p)
  | trans {w₁ w₂ w₃ : World} (first : Motion w₁ w₂) (second : Motion w₂ w₃) : Motion w₁ w₃

variable {w w' : World} {f g : FutureId} {j : Job} {s : Settlement}

/-! ### Callbacks one by one -/

theorem callbacks?_congr (futures : w'.futures = w.futures) :
    w'.callbacks? g = w.callbacks? g := by
  simp [callbacks?, future?, futures]

theorem loop?_congr (futures : w'.futures = w.futures) : w'.loop? g = w.loop? g := by
  simp [loop?, future?, futures]

theorem callbacks?_post (loop : Nat) : (w.post loop j).callbacks? g = w.callbacks? g := by
  unfold callbacks?
  rw [future?_post]

theorem loop?_post (loop : Nat) : (w.post loop j).loop? g = w.loop? g := by
  unfold loop?
  rw [future?_post]

theorem callbacks?_newFuture (purpose : Purpose) :
    (w.newFuture purpose).2.callbacks? g =
      if g = w.futures.size then some [] else w.callbacks? g := by
  unfold callbacks?
  rw [future?_newFuture]
  split <;> rfl

theorem callbacks?_repurpose (p : Purpose) : (w.repurpose f p).callbacks? g = w.callbacks? g := by
  rw [callbacks?, repurpose, future?_modifyFuture]
  exact map_changed Future.callbacks (fun _ => by rfl) _

theorem postAll_agenda (loop : Nat) (js : List Job) :
    (w.postAll loop js).agenda =
      if loop = w.agenda.loop then { w.agenda with ready := w.agenda.ready ++ js }
      else if loop = 0 then { w.agenda with parked := w.agenda.parked ++ js } else w.agenda := by
  induction js generalizing w with
  | nil => simp [postAll]
  | cons j js ih =>
    have rest := ih (w := w.post loop j)
    rw [show w.postAll loop (j :: js) = (w.post loop j).postAll loop js from rfl, rest]
    unfold post
    split
    · simp
    · split
      · simp
      · simp

/-! ### Motions keep the lanes -/

theorem mem_jobs_of_callback {js : List Job} (own : w.callbacks? g = some js) (member : j ∈ js) :
    j ∈ w.jobs := by
  obtain ⟨x, found, rfl⟩ := Option.map_eq_some_iff.mp own
  refine List.mem_append_right _ (List.mem_flatMap.mpr ⟨x, ?_, member⟩)
  exact Array.mem_toList_iff.mpr (Array.mem_of_getElem? found)

theorem mem_jobs_of_ready (member : j ∈ w.agenda.ready) : j ∈ w.jobs :=
  List.mem_append_left _ (List.mem_append_left _ (List.mem_append_left _ member))

theorem mem_jobs_of_parked (member : j ∈ w.agenda.parked) : j ∈ w.jobs :=
  List.mem_append_left _ (List.mem_append_left _ (List.mem_append_right _ member))

theorem mem_jobs_of_timer {t : Timer} (member : t ∈ w.agenda.timers) : t.job ∈ w.jobs :=
  List.mem_append_left _ (List.mem_append_right _ (List.mem_map_of_mem member))

theorem mem_jobs (member : j ∈ w.jobs) :
    j ∈ w.agenda.ready ∨ j ∈ w.agenda.parked ∨ (∃ t ∈ w.agenda.timers, t.job = j) ∨
      ∃ g js, w.callbacks? g = some js ∧ j ∈ js := by
  rcases List.mem_append.mp member with lanes | called
  · rcases List.mem_append.mp lanes with queue | timed
    · rcases List.mem_append.mp queue with ready | parked
      · exact .inl ready
      · exact .inr (.inl parked)
    · exact .inr (.inr (.inl (List.mem_map.mp timed)))
  · obtain ⟨x, there, own⟩ := List.mem_flatMap.mp called
    obtain ⟨g, found⟩ := List.mem_iff_getElem?.mp there
    refine .inr (.inr (.inr ⟨g, x.callbacks, ?_, own⟩))
    rw [callbacks?, future?, ← Array.getElem?_toList, found]
    rfl

namespace Lanes

/-- The lanes stay good when jobs leave them and what is known of futures grows. -/
theorem shrink (h : Lanes w)
    (settled : ∀ f, (w.settlement? f).isSome → (w'.settlement? f).isSome)
    (loops : ∀ f n, w.loop? f = some n → w'.loop? f = some n)
    (loop : w'.agenda.loop = w.agenda.loop)
    (ready : w'.agenda.ready.Sublist w.agenda.ready)
    (parked : w'.agenda.parked.Sublist w.agenda.parked)
    (timers : ∀ t ∈ w'.agenda.timers, t ∈ w.agenda.timers ∨ t.job.source? = none)
    (callbacks : ∀ g js, w'.callbacks? g = some js →
      js = [] ∨ (w.callbacks? g = some js ∧ (w.settlement? g = none → w'.settlement? g = none))) :
    Lanes w' := by
  refine ⟨(h.ready.sublist ready).mono ?_, (h.parked.sublist parked).mono ?_, ?_, ?_, ?_⟩
  · exact fun f ⟨past, own⟩ => ⟨settled f past, loop ▸ loops f _ own⟩
  · exact fun f ⟨past, own⟩ => ⟨settled f past, loops f _ own⟩
  · intro some
    refine loop ▸ h.away fun none => some ?_
    exact List.sublist_nil.mp (none ▸ parked)
  · intro t member
    rcases timers t member with old | free
    · exact h.timers t old
    · exact free
  · intro g js own
    rcases callbacks g js own with rfl | ⟨old, still⟩
    · exact ⟨.nil, fun some => absurd rfl some⟩
    · obtain ⟨lane, pending⟩ := h.callbacks g js old
      exact ⟨lane, fun some => still (pending some)⟩

theorem join (h : Lanes w) (loop : Nat) (js : List Job)
    (fits : Lane (fun f => (w.settlement? f).isSome ∧ w.loop? f = some loop) js)
    (order : ∀ j ∈ w.agenda.ready ++ w.agenda.parked, ∀ k ∈ js, j.InOrder k) :
    Lanes (w.postAll loop js) := by
  have same (g : FutureId) : (w.postAll loop js).future? g = w.future? g := future?_postAll loop js
  have settlements (g : FutureId) : (w.postAll loop js).settlement? g = w.settlement? g := by
    simp only [settlement?, same]
  have loops (g : FutureId) : (w.postAll loop js).loop? g = w.loop? g := by
    simp only [loop?, same]
  have callbacks (g : FutureId) : (w.postAll loop js).callbacks? g = w.callbacks? g := by
    simp only [callbacks?, same]
  have inReady (j : Job) (member : j ∈ w.agenda.ready) := order j (List.mem_append_left _ member)
  have inParked (j : Job) (member : j ∈ w.agenda.parked) := order j (List.mem_append_right _ member)
  constructor
  case ready =>
    simp only [settlements, loops, postAll_agenda]
    split
    · rename_i here
      exact h.ready.append (here ▸ fits) inReady
    · split <;> exact h.ready
  case parked =>
    simp only [settlements, loops, postAll_agenda]
    split
    · exact h.parked
    · split
      · rename_i main
        exact h.parked.append (main ▸ fits) inParked
      · exact h.parked
  case away =>
    simp only [postAll_agenda]
    split
    · exact h.away
    · split
      · rename_i elsewhere main
        exact fun _ => fun here => elsewhere (main.trans here.symm)
      · exact h.away
  case timers =>
    have timers : (w.postAll loop js).agenda.timers = w.agenda.timers := by
      rw [postAll_agenda]
      split
      · rfl
      · split <;> rfl
    rw [timers]
    exact h.timers
  case callbacks =>
    intro g ks own
    rw [callbacks] at own
    rw [settlements]
    exact h.callbacks g ks own

theorem post (h : Lanes w) (loop : Nat)
    (fits : ∀ f, j.source? = some f → (w.settlement? f).isSome ∧ w.loop? f = some loop)
    (order : ∀ k ∈ w.agenda.ready ++ w.agenda.parked, k.InOrder j) : Lanes (w.post loop j) :=
  h.join loop [j] (.single fits) fun k member _ own => List.mem_singleton.mp own ▸ order k member

theorem newFuture (h : Lanes w) (purpose : Purpose) : Lanes (w.newFuture purpose).2 := by
  have grown := Grown.newFuture (w := w) purpose
  refine h.shrink grown.isSome grown.loops rfl (.refl _) (.refl _) (fun t member => .inl member) ?_
  intro g js own
  rw [callbacks?_newFuture] at own
  split at own
  · exact .inl (Option.some.inj own).symm
  · exact .inr ⟨own, fun none => (settlement?_newFuture purpose).trans none⟩

theorem repurpose (h : Lanes w) (f : FutureId) (p : Purpose) : Lanes (w.repurpose f p) := by
  have settlements (g : FutureId) : (w.repurpose f p).settlement? g = w.settlement? g :=
    settlement?_repurpose
  have settled (g : FutureId) (past : (w.settlement? g).isSome) :
      ((w.repurpose f p).settlement? g).isSome := by
    rw [settlements]
    exact past
  refine h.shrink settled (fun g n own => loop?_repurpose.trans own) rfl (.refl _) (.refl _)
    (fun t member => .inl member) ?_
  intro g js own
  rw [callbacks?_repurpose] at own
  exact .inr ⟨own, fun pending => (settlements g).trans pending⟩

theorem schedule (h : Lanes w) (ticks : Nat) (free : j.source? = none) :
    Lanes (w.schedule ticks j) := by
  refine h.shrink (fun _ => id) (fun _ _ => id) rfl (.refl _) (.refl _) ?_ fun g js own => .inr ⟨own, id⟩
  intro t member
  rcases List.mem_cons.mp ((insertTimer_perm _ _).subset member) with rfl | old
  · exact .inr free
  · exact .inl old

theorem silenced (h : Lanes w) {x : Future} (found : w.future? f = some x) :
    Lanes (w.modifyFuture f fun x => { x with settled := some s, callbacks := [] }) := by
  refine h.shrink ?_ ?_ rfl (.refl _) (.refl _) (fun t member => .inl member) ?_
  · intro g past
    unfold settlement? at past ⊢
    rw [future?_modifyFuture]
    split
    · rename_i same
      subst same
      rw [found]
      rfl
    · exact past
  · intro g n own
    rw [loop?, future?_modifyFuture]
    exact (map_changed Future.loop (fun _ => by rfl) _).trans own
  · intro g js own
    unfold callbacks? at own ⊢
    rw [future?_modifyFuture] at own
    split at own
    · rw [Option.map_map] at own
      obtain ⟨y, -, rfl⟩ := Option.map_eq_some_iff.mp own
      exact .inl rfl
    · rename_i other
      refine .inr ⟨own, fun none => ?_⟩
      unfold settlement? at none ⊢
      rw [future?_modifyFuture, if_neg other]
      exact none

theorem settle (h : Lanes w) (f : FutureId) (s : Settlement) : Lanes (w.settle f s) := by
  unfold World.settle
  split
  · rename_i x found
    split
    · exact h
    · rename_i running
      have pending : w.settlement? f = none := by
        rw [settlement?_of_future? found]
        simpa using running
      obtain ⟨own, -⟩ := h.callbacks f x.callbacks (by rw [callbacks?, found]; rfl)
      refine (h.silenced (s := s) found).join x.loop x.callbacks (own.mono ?_) ?_
      · rintro g rfl
        unfold settlement? loop?
        rw [future?_modifyFuture, if_pos rfl, found]
        exact ⟨rfl, rfl⟩
      · -- no job of the queue waits for a future that was pending until now
        intro j member k waits
        refine Job.inOrder_of_source fun g source own' => ?_
        obtain rfl : g = f := own.sources k waits g own'
        have past : (w.settlement? g).isSome := by
          rcases List.mem_append.mp member with ready | parked
          · exact (h.ready.sources j ready g source).1
          · exact (h.parked.sources j parked g source).1
        simp [pending] at past
  · exact h

theorem onSettled (h : Lanes w) (own : ∀ g, j.source? = some g → g = f)
    (order : ∀ k ∈ w.jobs, k.InOrder j) : Lanes (w.onSettled f j) := by
  unfold World.onSettled
  split
  · rename_i x found
    split
    · rename_i past
      refine h.post x.loop ?_ ?_
      · rintro g source
        obtain rfl := own g source
        exact ⟨by rw [settlement?_of_future? found]; exact past, by rw [loop?, found]; rfl⟩
      · intro k member
        rcases List.mem_append.mp member with ready | parked
        · exact order k (mem_jobs_of_ready ready)
        · exact order k (mem_jobs_of_parked parked)
    · rename_i running
      have settlements (g : FutureId) : (w.modifyFuture f fun x =>
          { x with callbacks := x.callbacks ++ [j] }).settlement? g = w.settlement? g := by
        rw [settlement?_eq_join, settlement?_eq_join, future?_modifyFuture]
        exact congrArg Option.join (map_changed Future.settled (fun _ => by rfl) _)
      have loops (g : FutureId) : (w.modifyFuture f fun x =>
          { x with callbacks := x.callbacks ++ [j] }).loop? g = w.loop? g := by
        rw [loop?, future?_modifyFuture]
        exact map_changed Future.loop (fun _ => by rfl) _
      refine ⟨?_, ?_, h.away, h.timers, ?_⟩
      · exact h.ready.mono fun g fits => ⟨(settlements g).symm ▸ fits.1, (loops g).trans fits.2⟩
      · exact h.parked.mono fun g fits => ⟨(settlements g).symm ▸ fits.1, (loops g).trans fits.2⟩
      · intro g js own'
        rw [settlements]
        unfold callbacks? at own'
        rw [future?_modifyFuture] at own'
        split at own'
        · rename_i same
          subst same
          rw [found] at own'
          obtain rfl := Option.some.inj own'
          have there : w.callbacks? g = some x.callbacks := by rw [callbacks?, found]; rfl
          obtain ⟨lane, -⟩ := h.callbacks g _ there
          refine ⟨lane.append (.single own) ?_, fun _ => ?_⟩
          · intro k member l last
            exact List.mem_singleton.mp last ▸ order k (mem_jobs_of_callback there member)
          · rw [settlement?_of_future? found]
            simpa using running
        · exact h.callbacks g js own'
  · exact h

theorem motion (h : Lanes w) (m : Motion w w') : Lanes w' := by
  induction m with
  | still futures loop ready parked timers =>
    refine h.shrink (fun f past => (settlement?_congr futures).symm ▸ past)
      (fun f n own => (loop?_congr futures).trans own) loop (ready ▸ .refl _) (parked ▸ .refl _)
      (fun t member => .inl (timers ▸ member)) fun g js own => .inr ⟨?_, fun none => ?_⟩
    · exact (callbacks?_congr futures).symm.trans own
    · exact (settlement?_congr futures).trans none
  | posted loop free =>
    refine h.post loop (fun f source => ?_) fun k _ => Job.inOrder_of_free free
    rw [free] at source
    cases source
  | scheduled ticks free => exact h.schedule ticks free
  | made purpose => exact h.newFuture purpose
  | settled f s => exact h.settle f s
  | called own order => exact h.onSettled own order
  | repurposed f p => exact h.repurpose f p
  | trans _ _ ih ih' => exact ih' (ih h)

end Lanes

theorem Lanes.sourced (h : Lanes w) : w.Sourced := by
  have known {f : FutureId} {n : Nat} (own : w.loop? f = some n) : f < w.futures.size := by
    obtain ⟨x, found, -⟩ := Option.map_eq_some_iff.mp own
    exact future?_lt found
  intro j member f source
  rcases mem_jobs member with ready | parked | ⟨t, timed, rfl⟩ | ⟨g, js, own, called⟩
  · exact known (h.ready.sources j ready f source).2
  · exact known (h.parked.sources j parked f source).2
  · rw [h.timers t timed] at source
    cases source
  · obtain rfl := (h.callbacks g js own).1.sources j called f source
    obtain ⟨x, found, -⟩ := Option.map_eq_some_iff.mp own
    exact future?_lt found

/-! ### Everything a machine does is a motion -/

namespace Motion

theorem refl (w : World) : Motion w w := .still rfl rfl rfl rfl rfl

theorem of_agenda (futures : w'.futures = w.futures) (agenda : w'.agenda = w.agenda) :
    Motion w w' :=
  .still futures (agenda ▸ rfl) (agenda ▸ rfl) (agenda ▸ rfl) (agenda ▸ rfl)

theorem raisedTo (n : Nat) : Motion w (w.raisedTo n) := of_agenda rfl rfl

theorem focusOn (f : Focus) : Motion w (w.focusOn f) := of_agenda rfl rfl

theorem newTask (r : Routine) : Motion w (w.newTask r).2 := (made _).trans (posted _ rfl)

theorem setPosition (t : FutureId) (p : Position) (waiting : Option FutureId) :
    Motion w (w.setPosition t p waiting) := by
  unfold World.setPosition
  split
  · exact repurposed t _
  · exact refl w

theorem scripted (h : Scripted w w') : Motion w w' := by
  induction h with
  | aside _ futures agenda _ => exact of_agenda futures agenda
  | reported _ _ _ => exact settled _ _
  | postponed ticks _ _ => exact scheduled ticks rfl
  | queued _ _ => exact posted _ rfl
  | made => exact made _
  | timed ticks _ => exact (made _).trans (scheduled ticks rfl)
  | settled _ _ _ futures agenda =>
    exact ((made _).trans (of_agenda futures agenda)).trans (settled _ _)
  | trans _ _ ih ih' => exact ih.trans ih'

theorem newCompletion (d : Descriptor) : Motion w (w.newCompletion d).2 := by
  obtain ⟨r, -, same⟩ | same := newCompletion_cases (w := w) (d := d) <;> rw [same]
  · exact of_agenda rfl rfl
  · exact (made _).trans (of_agenda rfl rfl)

theorem asked (own : ∀ g, j.source? = some g → g = f) (other : ∀ g, ¬ j.IsNotice g) :
    Motion w (w.onSettled f j) :=
  called own fun _ _ g _ => other g

theorem registered (l : List FutureId) (w : World) (g : FutureId) :
    Motion w (l.foldl (fun w child => w.onSettled child (.childEnded g child)) w) := by
  induction l generalizing w with
  | nil => exact refl w
  | cons c rest ih =>
    have first : Motion w (w.onSettled c (.childEnded g c)) :=
      asked (fun _ same => (Option.some.inj same).symm) (by simp [Job.IsNotice])
    exact first.trans (ih _)

theorem newJoint (chains : List FutureId) : Motion w (w.newJoint chains).2 := by
  unfold World.newJoint
  dsimp only
  split
  · exact (made _).trans (settled _ _)
  · exact (made _).trans (registered chains _ _)

theorem effect {notes : List Note} {tasks : List (FutureId × Routine)}
    (h : Effect notes tasks w w') : Motion w w' := by
  induction h with
  | kept d => exact of_agenda d.loop.futures d.loop.agenda
  | scripted h => exact scripted h
  | described d => exact newCompletion d
  | recorded r _ _ => exact (made _).trans (of_agenda rfl rfl)
  | tasked r _ => exact newTask r
  | @watched w f run node _ _ unseen =>
    have noted := note_loop (w := w) run (.began node.head (some f))
    refine (of_agenda noted.futures noted.agenda).trans ?_
    refine called (fun _ same => (Option.some.inj same).symm) fun k member => ?_
    refine Job.inOrder_of_source fun g source same => ?_
    exact unseen k member (source.trans same.symm)
  | joined _ _ => exact newJoint _
  | waited f =>
    refine (made _).trans (asked (fun _ same => (Option.some.inj same).symm) ?_)
    simp [Job.IsNotice]
  | @concluded w run _ s _ _ _ _ =>
    have settling := setStatus_loop (w := w) run s
    exact (of_agenda settling.futures settling.agenda).trans (settled _ _)
  | failed _ _ _ _ => exact settled _ _
  | trans _ _ ih ih' => exact ih.trans ih'

theorem handover (h : Handover w w') : Motion w w' := by
  cases h with
  | focused f _ _ _ => exact focusOn f
  | suspended _ _ =>
    refine ((setPosition _ _ _).trans (asked (fun g same => ?_) ?_)).trans (focusOn .idle)
    · exact (Option.some.inj same).symm
    · simp [Job.IsNotice]
  | yielded _ => exact ((setPosition _ _ _).trans (posted _ rfl)).trans (focusOn .idle)
  | ended _ => exact ((setPosition _ _ _).trans (settled _ _)).trans (focusOn .idle)

theorem resumeTask (t : FutureId) (o : Outcome) : Motion w (w.resumeTask t o) := by
  obtain same | ⟨p, waiting, mustCancel, f, n, o', -, -, -, same, -⟩ :=
    resumeTask_cases (w := w) t o <;> rw [same]
  · exact refl w
  · exact ((repurposed t _).trans (raisedTo n)).trans (focusOn f)

theorem childEnded (g c : FutureId) : Motion w (w.childEnded g c) := by
  obtain same | ⟨children, ended, requested, s, n, -, -, result⟩ :=
    childEnded_cases (w := w) g c
  · rw [same]
    exact refl w
  · obtain ⟨same, -⟩ | ⟨s', same, -, -⟩ := result _ rfl <;> rw [same]
    · exact repurposed g _
    · exact ((repurposed g _).trans (raisedTo n)).trans (settled g s')

theorem handled (h : Handled j w w') : Motion w w' := by
  cases h with
  | effect h _ => exact effect h
  | resumed => exact resumeTask _ _
  | woken _ => exact (effect (.deliver _)).trans (resumeTask _ _)
  | counted => exact childEnded _ _
  | freed => exact settled _ _
  | matured n _ => exact (raisedTo n).trans (settled _ _)
  | stopped => exact still rfl rfl rfl rfl rfl

theorem interrupted (h : Interrupted w w') : Motion w w' := by
  induction h with
  | refl w => exact refl w
  | settled _ => exact settled _ _
  | asked _ => exact repurposed _ _
  | told _ => exact repurposed _ _
  | trans _ _ ih ih' => exact ih.trans ih'

end Motion

/-! ### Jobs that leave -/

namespace Lanes

theorem nextJob (h : Lanes w) (next : w.nextJob? = some (j, w')) : Lanes w' := by
  obtain ⟨_, _, queue, rfl⟩ := nextJob_cases next
  refine h.shrink (fun _ => id) (fun _ _ => id) rfl ?_ (.refl _) (fun t member => .inl member)
    fun g js own => .inr ⟨own, id⟩
  exact queue ▸ List.sublist_cons_self _ _

theorem beginTurn (h : Lanes w) : Lanes w.beginTurn := by
  have parts := List.span_eq_takeWhile_dropWhile (p := fun t : Timer => decide (t.due ≤ w.clock))
    (l := w.agenda.timers)
  have free : ∀ j ∈ (w.agenda.timers.takeWhile fun t => decide (t.due ≤ w.clock)).map (·.job),
      j.source? = none := by
    intro j member
    obtain ⟨t, due, rfl⟩ := List.mem_map.mp member
    exact h.timers t ((List.takeWhile_sublist _).subset due)
  refine ⟨?_, h.parked, h.away, ?_, h.callbacks⟩
  · simp only [World.beginTurn, parts]
    exact h.ready.append (.of_free free) fun _ _ k member => Job.inOrder_of_free (free k member)
  · simp only [World.beginTurn, parts]
    exact fun t member => h.timers t ((List.dropWhile_sublist _).subset member)

theorem nextTurn (h : Lanes w) (next : w.nextTurn? = some w') : Lanes w' := by
  obtain ⟨_, -, rfl⟩ := nextTurn_cases next
  exact beginTurn ⟨h.ready, h.parked, h.away, h.timers, h.callbacks⟩

theorem change (h : Lanes w) (c : Change w w') : Lanes w' := by
  cases c with
  | worked effect past => exact (h.motion (.effect effect)).motion (.handover past)
  | handled _ next rest => exact (h.nextJob next).motion (.handled rest)
  | turned _ next => exact h.nextTurn next

theorem fresh (h : w.Fresh) : Lanes w := by
  have none (g : FutureId) : w.callbacks? g = none := by
    simp [callbacks?, future?, h.futures]
  constructor
  case ready => exact h.agenda ▸ .nil
  case parked => exact h.agenda ▸ .nil
  case away => exact h.agenda ▸ fun some => absurd rfl some
  case timers => exact h.agenda ▸ fun t member => absurd member List.not_mem_nil
  case callbacks => exact fun g js own => by simp [none] at own

theorem move {plan : Plan} (h : Lanes w) (steady : w.Steady) (m : Move plan w w') : Lanes w' := by
  cases m with
  | stepped stepped => exact h.change (step_change steady stepped)
  | supplied heap => exact h.motion (.of_agenda rfl rfl)
  | called r _ => exact h.motion (.newTask r)
  | observed f =>
    exact h.motion (.asked (fun _ same => nomatch same) (by simp [Job.IsNotice]))
  | cleared => exact h.motion (.of_agenda rfl rfl)
  | cancelled f => exact h.motion (.interrupted (cancel_interrupted f))
  | turned => exact h.beginTurn
  | opened n main other _ =>
    refine ⟨.nil, ?_, fun _ => other, by simp [World.openLoop], h.callbacks⟩
    exact h.ready.mono fun f fits => ⟨fits.1, main ▸ fits.2⟩
  | closed _ =>
    exact ⟨h.parked, .nil, fun some => absurd rfl some, by simp [dropLoop], h.callbacks⟩

end Lanes

/-! ### Jobs that stay -/

def Frozen (w : World) (f : FutureId) : Prop :=
  ∃ n, w.loop? f = some n ∧ n ≠ 0 ∧ n ≠ w.agenda.loop

/-- No job that waits for a future gets lost, but with the loop of that future. -/
structure Keeps (w w' : World) : Prop where
  jobs : ∀ j ∈ w.jobs, ∀ f, j.source? = some f → j ∈ w'.jobs ∨ w'.Frozen f
  loop : w'.agenda.loop = w.agenda.loop
  loops : ∀ f n, w.loop? f = some n → w'.loop? f = some n

namespace Keeps

theorem frozen (h : Keeps w w') (closed : w.Frozen f) : w'.Frozen f := by
  obtain ⟨n, own, alone, other⟩ := closed
  exact ⟨n, h.loops f n own, alone, h.loop ▸ other⟩

theorem trans {w₁ w₂ w₃ : World} (h : Keeps w₁ w₂) (h' : Keeps w₂ w₃) : Keeps w₁ w₃ := by
  refine ⟨fun j member f source => ?_, h'.loop.trans h.loop, fun f n own => h'.loops f n (h.loops f n own)⟩
  rcases h.jobs j member f source with there | closed
  · exact h'.jobs j there f source
  · exact .inr (h'.frozen closed)

theorem of_subset (jobs : w.jobs ⊆ w'.jobs) (loop : w'.agenda.loop = w.agenda.loop)
    (loops : ∀ f n, w.loop? f = some n → w'.loop? f = some n) : Keeps w w' :=
  ⟨fun _ member _ _ => .inl (jobs member), loop, loops⟩

theorem subset_of_lanes (ready : w.agenda.ready ⊆ w'.agenda.ready)
    (parked : w.agenda.parked ⊆ w'.agenda.parked) (timers : w.agenda.timers ⊆ w'.agenda.timers)
    (callbacks : ∀ g js, w.callbacks? g = some js → js ⊆ w'.jobs) : w.jobs ⊆ w'.jobs := by
  intro j member
  rcases mem_jobs member with here | here | ⟨t, here, rfl⟩ | ⟨g, js, own, here⟩
  · exact mem_jobs_of_ready (ready here)
  · exact mem_jobs_of_parked (parked here)
  · exact mem_jobs_of_timer (timers here)
  · exact callbacks g js own here

theorem callbacks_of_same {g : FutureId} {js : List Job} (own : w.callbacks? g = some js)
    (same : w'.callbacks? g = w.callbacks? g) : js ⊆ w'.jobs :=
  fun _ member => mem_jobs_of_callback (same.trans own) member

theorem jobs_subset_post (loop : Nat) : w.jobs ⊆ (w.post loop j).jobs := by
  refine subset_of_lanes ?_ ?_ ?_ fun g js own => callbacks_of_same own (callbacks?_post loop)
  · unfold World.post
    split
    · exact List.subset_append_left _ _
    · split <;> exact List.Subset.refl _
  · unfold World.post
    split
    · exact List.Subset.refl _
    · split
      · exact List.subset_append_left _ _
      · exact List.Subset.refl _
  · unfold World.post
    split
    · exact List.Subset.refl _
    · split <;> exact List.Subset.refl _

theorem post (loop : Nat) : Keeps w (w.post loop j) :=
  of_subset (jobs_subset_post loop) (post_sameRuns loop).loop
    fun _ _ own => (loop?_post loop).trans own

theorem settle (h : Lanes w) (s : Settlement) : Keeps w (w.settle f s) := by
  have grown := Grown.settle (w := w) (f := f) (s := s)
  refine ⟨?_, settle_sameRuns.loop, grown.loops⟩
  unfold World.settle
  split
  · rename_i x found
    split
    · exact fun _ member _ _ => .inl member
    · -- the callbacks move to the queue of the loop, or are lost with it
      have agenda := postAll_agenda (w := w.modifyFuture f fun x =>
        { x with settled := some s, callbacks := [] }) x.loop x.callbacks
      generalize moved : (w.modifyFuture f fun x =>
        { x with settled := some s, callbacks := [] }).postAll x.loop x.callbacks = w' at agenda
      have callbacks (g : FutureId) (other : g ≠ f) : w'.callbacks? g = w.callbacks? g := by
        rw [← moved, callbacks?, future?_postAll, future?_modifyFuture, if_neg other]
        rfl
      have loops : w'.loop? f = some x.loop := by
        rw [← moved, loop?, future?_postAll, future?_modifyFuture, if_pos rfl, found]
        rfl
      change w'.agenda = if x.loop = w.agenda.loop then
          { w.agenda with ready := w.agenda.ready ++ x.callbacks }
        else if x.loop = 0 then { w.agenda with parked := w.agenda.parked ++ x.callbacks }
        else w.agenda at agenda
      intro j member g source
      rcases mem_jobs member with here | here | ⟨t, here, rfl⟩ | ⟨k, js, own, here⟩
      · refine .inl (mem_jobs_of_ready ?_)
        rw [agenda]
        split
        · exact List.mem_append_left _ here
        · split <;> exact here
      · refine .inl (mem_jobs_of_parked ?_)
        rw [agenda]
        split
        · exact here
        · split
          · exact List.mem_append_left _ here
          · exact here
      · refine .inl (mem_jobs_of_timer ?_)
        rw [agenda]
        split
        · exact here
        · split <;> exact here
      · by_cases same : k = f
        · subst same
          obtain rfl := (h.callbacks k js own).1.sources j here g source
          have mine : js = x.callbacks := by
            rw [callbacks?, found] at own
            exact (Option.some.inj own).symm
          subst mine
          split at agenda
          · exact .inl (mem_jobs_of_ready (by rw [agenda]; exact List.mem_append_right _ here))
          · rename_i elsewhere
            split at agenda
            · exact .inl (mem_jobs_of_parked (by rw [agenda]; exact List.mem_append_right _ here))
            · rename_i other
              exact .inr ⟨x.loop, loops, other, by rw [agenda]; exact elsewhere⟩
        · exact .inl (mem_jobs_of_callback ((callbacks k same).trans own) here)
  · exact fun _ member _ _ => .inl member

theorem motion (h : Lanes w) (m : Motion w w') : Keeps w w' := by
  induction m with
  | still futures loop ready parked timers =>
    refine of_subset (subset_of_lanes ?_ ?_ ?_ fun g js own => ?_) loop
      fun f n own => (loop?_congr futures).trans own
    · exact ready ▸ List.Subset.refl _
    · exact parked ▸ List.Subset.refl _
    · exact timers ▸ List.Subset.refl _
    · exact callbacks_of_same own (callbacks?_congr futures)
  | posted loop _ => exact post loop
  | scheduled ticks _ =>
    refine of_subset (subset_of_lanes (List.Subset.refl _) (List.Subset.refl _) ?_
      fun g js own => callbacks_of_same own rfl) rfl fun f n own => own
    exact fun t member => (insertTimer_perm _ _).symm.subset (List.mem_cons_of_mem _ member)
  | made purpose =>
    exact of_subset (jobs_newFuture purpose ▸ List.Subset.refl _) rfl (Grown.newFuture purpose).loops
  | settled f s => exact settle h s
  | @called w f j own order =>
    have grown := Grown.onSettled (w := w) (f := f) (j := j)
    refine of_subset ?_ onSettled_sameRuns.loop grown.loops
    unfold World.onSettled
    split
    · rename_i x found
      split
      · exact jobs_subset_post x.loop
      · have moved := jobs_modifyFuture found (fun x => { x with callbacks := x.callbacks ++ [j] })
        simp only [List.append_assoc, List.singleton_append] at moved
        have same := (List.perm_append_left_iff _).mp moved
        exact fun k member => same.symm.subset (List.mem_cons_of_mem _ member)
    · exact List.Subset.refl _
  | repurposed f p =>
    refine of_subset (subset_of_lanes (List.Subset.refl _) (List.Subset.refl _)
      (List.Subset.refl _) fun g js own => ?_) rfl fun g n own => loop?_repurpose.trans own
    exact callbacks_of_same own (callbacks?_repurpose p)
  | trans first _ ih ih' => exact (ih h).trans (ih' (h.motion first))

end Keeps

end World

end Conductor
