import Conductor.Proofs.Acts

/-!
# Where things happen

Whatever an act notes tells what the task at work was at: a node is called by a sequence or a group
that has come to it, completes when what it reports through is there, and is followed once its branch
has ended.
-/

namespace Conductor.World

variable {w w' : World} {plan : Plan} {run other : RunId} {call : Call} {t : FutureId} {n : Node}
  {stack : List Frame} {e : Raised} {notes pre : List Note} {tasks : List (FutureId × Routine)}
  {next focus : Focus} {body : Option FutureId} {h : Head} {x : Happening}

inductive Calls (run : RunId) (n : Node) : Focus → Prop where
  | sequential {t : FutureId} {stack : List Frame} : Calls run n (.enter t (.sequential run n) stack)
  | dispatch {t : FutureId} {place : Path} {position : Nat} {rest : List Entry} {chains : List FutureId}
      {stack : List Frame} :
      Calls run n (.enter t (.dispatch run place position (n.entry :: rest) chains) stack)

inductive Reports (run : RunId) (call : Call) : Option FutureId → Focus → Prop where
  | sequential {t : FutureId} {stack : List Frame} :
      Reports run call none (.enter t (.sequential run call.node) stack)
  | returning {t : FutureId} {v : Yield} {stack : List Frame} :
      Reports run call none (.leave t (.ok v) (.returning run call :: stack))
  | completing {t : FutureId} {v : Yield} {body : Option FutureId} {stack : List Frame} :
      Reports run call body (.leave t (.ok v) (.completing run call body :: stack))

/-- What the task at work was at, and what it turns to, when an act notes something of a run. -/
inductive Happens (plan : Plan) (w : World) (run : RunId) (notes : List Note) (focus next : Focus) :
    Happening → Prop where
  | called (n : Node) (args : Entries) (fresh : w.isSettled run = false) (calls : Calls run n focus) :
      Happens plan w run notes focus next (.called n.head args)
  | began (n : Node) (body : Option FutureId) (calls : Calls run n focus)
      (called : ∃ args, (run, .called n.head args) ∈ notes) (new : ∀ b, body = some b → w.futures.size ≤ b) :
      Happens plan w run notes focus next (.began n.head body)
  | ended (call : Call) {t : FutureId} {v : Yield} {stack : List Frame}
      (here : focus = .leave t (.ok v) (.returning run call :: stack)) :
      Happens plan w run notes focus next (.ended call.node.head)
  | spawned {t : FutureId} {place : Path} {position : Nat} {inner rest : List Entry}
      {chains : List FutureId} {stack : List Frame} (fresh : w.isSettled run = false)
      (here : focus = .enter t (.dispatch run place position (.nested inner :: rest) chains) stack) :
      Happens plan w run notes focus next (.spawned (place ++ [.entry position]))
  | completed (call : Call) (r : Result) (payload : Entries) {body : Option FutureId} {t : FutureId}
      {stack : List Frame} (mergeable : r.payload.isMergeable) (reports : Reports run call body focus)
      (there : next = .enter t (.follow run call.node r) (.following run call body :: stack)) :
      Happens plan w run notes focus next (.completed call.node.head r payload)
  | followed (call : Call) {t : FutureId} {v : Yield} {body : Option FutureId} {stack : List Frame}
      (here : focus = .leave t (.ok v) (.following run call body :: stack)) :
      Happens plan w run notes focus next (.followed call.node.head)
  | failed (h : Head) (e : Raised) : Happens plan w run notes focus next (.failed h e)
  | unheard (h : Head) (e : Raised) (d : Descriptor) : Happens plan w run notes focus next (.unheard h e d)
  | rejected (ms : Nat) (e : Raised) : Happens plan w run notes focus next (.settled (.rejected ms e))
  | resolved (ms : Nat) {t : FutureId} {v : Yield} {stack : List Frame}
      (here : focus = .leave t (.ok v) (.drive run :: stack)) :
      Happens plan w run notes focus next (.settled (.resolved ms))

/-- Whatever an effect notes may happen, apart from the settlement of a run. -/
theorem Effect.fits (effect : Effect notes tasks w w') (member : (run, x) ∈ notes) :
    (∃ u, x.Fits u run) ∨ ∃ s, x = .settled s := by
  induction effect with
  | kept d =>
    cases d with
    | noted fits =>
      obtain ⟨rfl, rfl⟩ := Prod.mk.inj (List.mem_singleton.mp member)
      exact .inl ⟨_, fits⟩
    | refused _ _ _ _ =>
      obtain ⟨rfl, rfl⟩ := Prod.mk.inj (List.mem_singleton.mp member)
      exact .inr ⟨_, rfl⟩
    | marked _ => cases member
  | @watched w _ _ _ _ _ _ =>
    obtain ⟨rfl, rfl⟩ := Prod.mk.inj (List.mem_singleton.mp member)
    exact .inl ⟨w, trivial⟩
  | concluded _ _ _ =>
    obtain ⟨rfl, rfl⟩ := Prod.mk.inj (List.mem_singleton.mp member)
    exact .inr ⟨_, rfl⟩
  | trans _ _ ih ih' => exact (List.mem_append.mp member).elim ih' ih
  | _ => cases member

theorem Rejections.happens (only : Rejections other notes) (member : (run, x) ∈ notes) :
    Happens plan w run pre focus next x := by
  obtain ⟨ms, e, same⟩ := only _ member
  obtain ⟨rfl, rfl⟩ := Prod.mk.inj same
  exact .rejected _ _

theorem Lost.happens (lost : Lost other h e pre t stack w notes w' next) (member : (run, x) ∈ notes)
    (before : (run, x) ∈ pre → Happens plan w run notes focus next x) :
    Happens plan w run notes focus next x := by
  cases lost with
  | mk _ rest =>
    rcases List.mem_append.mp member with rejection | failure
    · exact Rejections.happens rest.only rejection
    · rcases List.mem_cons.mp failure with same | earlier
      · obtain ⟨rfl, rfl⟩ := Prod.mk.inj same
        exact .failed _ _
      · exact before earlier

theorem Finished.happens (finished : Finished plan other call body pre t stack w notes w' next)
    (reports : Reports other call body focus) (member : (run, x) ∈ notes)
    (before : (run, x) ∈ pre → Happens plan w run notes focus next x) :
    Happens plan w run notes focus next x := by
  cases finished with
  | lost lost => exact lost.happens member before
  | moot _ _ => exact before member
  | followed _ _ _ effect =>
    rcases List.mem_cons.mp member with same | earlier
    · obtain ⟨rfl, rfl⟩ := Prod.mk.inj same
      rcases effect.fits (List.mem_singleton_self _) with ⟨u, -, mergeable⟩ | ⟨s, settlement⟩
      · exact .completed call _ _ mergeable reports rfl
      · cases settlement
    · exact before earlier

theorem Act.happens (act : Act plan w focus notes tasks w' next) (member : (run, x) ∈ notes) :
    Happens plan w run notes focus next x := by
  cases act with
  | sequenced call fresh finished =>
    refine finished.happens .sequential member fun earlier => ?_
    obtain ⟨rfl, rfl⟩ := Prod.mk.inj (List.mem_singleton.mp earlier)
    exact .called _ _ fresh .sequential
  | inside call fresh _ =>
    rcases List.mem_pair.mp member with same | same <;> obtain ⟨rfl, rfl⟩ := Prod.mk.inj same
    · exact .began _ _ .sequential ⟨_, List.mem_cons_of_mem _ (List.mem_singleton_self _)⟩ (by simp)
    · exact .called _ _ fresh .sequential
  | outside call fresh _ new _ _ =>
    rcases List.mem_pair.mp member with same | same <;> obtain ⟨rfl, rfl⟩ := Prod.mk.inj same
    · refine .began _ _ .sequential ⟨_, List.mem_cons_of_mem _ (List.mem_singleton_self _)⟩ fun b own => ?_
      exact Option.some.inj own ▸ new
    · exact .called _ _ fresh .sequential
  | undispatched fresh lost =>
    refine lost.happens member fun earlier => ?_
    obtain ⟨rfl, rfl⟩ := Prod.mk.inj (List.mem_singleton.mp earlier)
    exact .called _ _ fresh .dispatch
  | plain call fresh _ _ =>
    obtain ⟨rfl, rfl⟩ := Prod.mk.inj (List.mem_singleton.mp member)
    exact .called _ _ fresh .dispatch
  | watched call _ fresh _ _ _ new _ _ =>
    rcases List.mem_pair.mp member with same | same <;> obtain ⟨rfl, rfl⟩ := Prod.mk.inj same
    · refine .began _ _ .dispatch ⟨_, List.mem_cons_of_mem _ (List.mem_singleton_self _)⟩ fun b own => ?_
      exact Option.some.inj own ▸ new
    · exact .called _ _ fresh .dispatch
  | spawned fresh =>
    obtain ⟨rfl, rfl⟩ := Prod.mk.inj (List.mem_singleton.mp member)
    exact .spawned fresh rfl
  | unasked lost => exact lost.happens member fun earlier => by cases earlier
  | missed _ _ _ =>
    obtain ⟨rfl, rfl⟩ := Prod.mk.inj (List.mem_singleton.mp member)
    exact .failed _ _
  | resolved _ _ only _ =>
    obtain ⟨ms, same⟩ := only _ member
    obtain ⟨rfl, rfl⟩ := Prod.mk.inj same
    exact .resolved _ rfl
  | returned finished =>
    refine finished.happens .returning member fun earlier => ?_
    obtain ⟨rfl, rfl⟩ := Prod.mk.inj (List.mem_singleton.mp earlier)
    exact .ended _ rfl
  | completed finished => exact finished.happens .completing member fun earlier => by cases earlier
  | followed =>
    obtain ⟨rfl, rfl⟩ := Prod.mk.inj (List.mem_singleton.mp member)
    exact .followed _ rfl
  | lingering =>
    obtain ⟨rfl, rfl⟩ := Prod.mk.inj (List.mem_singleton.mp member)
    exact .followed _ rfl
  | rejected losing => exact Rejections.happens losing.only member
  | unreturned lost => exact lost.happens member fun earlier => by cases earlier
  | uncompleted lost => exact lost.happens member fun earlier => by cases earlier
  | unfollowed losing => exact Rejections.happens losing.only member
  | unfinished losing => exact Rejections.happens losing.only member
  | _ => cases member

inductive Loses (run : RunId) (t : FutureId) (stack : List Frame) : Head → List Note → Focus → Prop where
  | sequential (n : Node) (args : Entries) :
      Loses run t stack n.head [(run, .called n.head args)] (.enter t (.sequential run n) stack)
  | dispatch (n : Node) (args : Entries) {place : Path} {position : Nat} {rest : List Entry}
      {chains : List FutureId} : Loses run t stack n.head [(run, .called n.head args)]
        (.enter t (.dispatch run place position (n.entry :: rest) chains) stack)
  | member (call : Call) (body : Option FutureId) :
      Loses run t stack call.node.head [] (.enter t (.member run call body) stack)
  | returning (call : Call) (o : Outcome) {pre : List Note}
      (only : pre = [] ∨ pre = [(run, .ended call.node.head)]) :
      Loses run t stack call.node.head pre (.leave t o (.returning run call :: stack))
  | completing (call : Call) (body : Option FutureId) (o : Outcome) :
      Loses run t stack call.node.head [] (.leave t o (.completing run call body :: stack))

inductive Fails (plan : Plan) (w : World) (run : RunId) (h : Head) (e : Raised) (focus : Focus)
    (notes : List Note) (w' : World) (next : Focus) : Prop where
  | lost {t : FutureId} {stack : List Frame} {pre : List Note} (loses : Loses run t stack h pre focus)
      (lost : Lost run h e pre t stack w notes w' next)
  | missed {t : FutureId} {n : Node} {r : Result} {stack : List Frame} (own : n.head = h)
      (ordinary : e.fault.nature = .ordinary) (here : focus = .enter t (.follow run n r) stack)
      (only : notes = [(run, .failed h e)]) (there : next = .leave t (.error e) stack)

theorem Lost.own {x : Raised} {h' : Head} {stack : List Frame}
    (lost : Lost other h' x pre t stack w notes w' next)
    (member : (run, .failed h e) ∈ notes) (before : (run, .failed h e) ∉ pre) :
    run = other ∧ h = h' ∧ e = x := by
  cases lost with
  | mk _ rest =>
    rcases List.mem_append.mp member with rejection | failure
    · obtain ⟨ms, y, same⟩ := rest.only _ rejection
      cases same
    · rcases List.mem_cons.mp failure with same | earlier
      · obtain ⟨rfl, mine⟩ := Prod.mk.inj same
        exact ⟨rfl, Happening.failed.inj mine⟩
      · exact absurd earlier before

theorem Finished.lost_of_failed (finished : Finished plan other call body pre t stack w notes w' next)
    (member : (run, .failed h e) ∈ notes) (before : (run, .failed h e) ∉ pre) :
    run = other ∧ h = call.node.head ∧ Lost run h e pre t stack w notes w' next := by
  cases finished with
  | lost lost =>
    obtain ⟨rfl, rfl, rfl⟩ := lost.own member before
    exact ⟨rfl, rfl, lost⟩
  | moot _ _ => exact absurd member before
  | followed _ _ _ _ =>
    rcases List.mem_cons.mp member with same | earlier
    · cases same
    · exact absurd earlier before

/-- Whatever failure an act notes is that of the node at which the task at work is. -/
theorem Act.fails (act : Act plan w focus notes tasks w' next) (member : (run, .failed h e) ∈ notes) :
    Fails plan w run h e focus notes w' next := by
  have losing {other : RunId} {o : Outcome} {x : Raised} (losing : Losing other x notes w w' o) :
      False := by
    obtain ⟨ms, y, same⟩ := losing.only _ member
    cases same
  cases act with
  | sequenced call fresh finished =>
    obtain ⟨rfl, rfl, lost⟩ := finished.lost_of_failed member (by simp)
    exact .lost (.sequential _ _) lost
  | undispatched fresh lost =>
    obtain ⟨rfl, rfl, rfl⟩ := lost.own member (by simp)
    exact .lost (.dispatch _ _) lost
  | unasked lost =>
    obtain ⟨rfl, rfl, rfl⟩ := lost.own member (by simp)
    exact .lost (.member _ _) lost
  | returned finished =>
    obtain ⟨rfl, rfl, lost⟩ := finished.lost_of_failed member (by simp)
    exact .lost (.returning _ _ (.inr rfl)) lost
  | completed finished =>
    obtain ⟨rfl, rfl, lost⟩ := finished.lost_of_failed member (by simp)
    exact .lost (.completing _ _ _) lost
  | unreturned lost =>
    obtain ⟨rfl, rfl, rfl⟩ := lost.own member (by simp)
    exact .lost (.returning _ _ (.inl rfl)) lost
  | uncompleted lost =>
    obtain ⟨rfl, rfl, rfl⟩ := lost.own member (by simp)
    exact .lost (.completing _ _ _) lost
  | missed ordinary _ _ =>
    obtain ⟨rfl, same⟩ := Prod.mk.inj (List.mem_singleton.mp member)
    obtain ⟨rfl, rfl⟩ := Happening.failed.inj same
    exact .missed rfl ordinary rfl rfl rfl
  | rejected rest => exact (losing rest).elim
  | unfollowed rest => exact (losing rest.toLosing).elim
  | unfinished rest => exact (losing rest.toLosing).elim
  | resolved _ _ only _ =>
    obtain ⟨ms, same⟩ := only _ member
    cases same
  | _ => simp at member

theorem Lost.leaves {x : Raised} (lost : Lost other h x pre t stack w notes w' next) :
    ∃ o, next = .leave t o stack := by
  cases lost with
  | mk _ _ => exact ⟨_, rfl⟩

theorem Plays.foreign {r : Routine} {u : FutureId} {stack' : List Frame} (plays : Plays w t stack next)
    (there : next = .enter u r stack') : r.run? = none := by
  cases plays with
  | left _ => cases there
  | entered _ _ own _ _ =>
    cases there
    exact own

def Follows (run : RunId) (n : Node) (stack : List Frame) : Prop :=
  ∃ call body rest, call.node = n ∧ stack = .following run call body :: rest

theorem Finished.branch {r : Result} {stack' : List Frame} {u : FutureId}
    (finished : Finished plan other call body pre t stack w notes w' next)
    (there : next = .enter u (.follow run n r) stack') :
    other = run ∧ call.node = n ∧ stack' = .following other call body :: stack := by
  cases finished with
  | lost lost =>
    obtain ⟨o, same⟩ := lost.leaves
    rw [same] at there
    cases there
  | moot _ _ => cases there
  | followed _ _ _ _ =>
    cases there
    exact ⟨rfl, rfl, rfl⟩

theorem Act.branch {r : Result} {u : FutureId} (act : Act plan w focus notes tasks w' next)
    (there : next = .enter u (.follow run n r) stack) :
    ∃ call body rest, call.node = n ∧ stack = .following run call body :: rest ∧ Reports run call body focus := by
  have lost {other : RunId} {h : Head} {x : Raised} {pre : List Note} {t : FutureId} {stack' : List Frame}
      (lost : Lost other h x pre t stack' w notes w' next) : False := by
    obtain ⟨o, same⟩ := lost.leaves
    rw [same] at there
    cases there
  cases act with
  | played _ _ _ plays => exact absurd (plays.foreign there) (by simp [Routine.run?])
  | replayed _ _ plays => exact absurd (plays.foreign there) (by simp [Routine.run?])
  | sequenced call _ finished =>
    obtain ⟨rfl, same, top⟩ := finished.branch there
    exact ⟨call, _, _, same, top, .sequential⟩
  | returned finished =>
    obtain ⟨rfl, same, top⟩ := finished.branch there
    exact ⟨_, _, _, same, top, .returning⟩
  | completed finished =>
    obtain ⟨rfl, same, top⟩ := finished.branch there
    exact ⟨_, _, _, same, top, .completing⟩
  | undispatched _ rest => exact (lost rest).elim
  | unasked rest => exact (lost rest).elim
  | unreturned rest => exact (lost rest).elim
  | uncompleted rest => exact (lost rest).elim
  | _ => cases there

theorem Act.follows {r : Result} {u : FutureId} (act : Act plan w focus notes tasks w' next)
    (there : next = .enter u (.follow run n r) stack) : Follows run n stack := by
  obtain ⟨call, body, rest, same, top, -⟩ := act.branch there
  exact ⟨call, body, rest, same, top⟩

end Conductor.World
