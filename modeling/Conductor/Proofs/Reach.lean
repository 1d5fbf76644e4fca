import Conductor.Proofs.Change
import Conductor.Session
import Mathlib.Logic.Relation

/-!
# Reachable states

A machine starts fresh. From then on it steps, and between its steps those who use it supply values,
start and cancel tasks, clear the nodes, and open and close loops. The states that come of this in
any order are the reachable ones; every invariant is one of these moves.
-/

namespace Conductor

/-- The routines that a user of a machine may give to a task. -/
def Routine.isCaller : Routine → Bool
  | .runner _ | .execute _ | .delayed _ _ => true
  | _ => false

namespace World

structure Fresh (w : World) : Prop where
  agenda : w.agenda = {}
  focus : w.focus = .idle
  futures : w.futures = #[]
  completions : w.completions = #[]
  records : w.records = #[]
  journal : w.journal = []

def dropLoop (w : World) : World := { w with agenda := { ready := w.agenda.parked } }

/-- What a machine and those who use it may do next. -/
inductive Move (plan : Plan) : World → World → Prop where
  | stepped {w w' : World} (h : w.step plan = some w') : Move plan w w'
  | supplied {w : World} (heap : Heap) : Move plan w { w with heap }
  | called {w : World} (r : Routine) (caller : r.isCaller) : Move plan w (w.newTask r).2
  | observed {w : World} (f : FutureId) : Move plan w (w.onSettled f .stop)
  | cleared {w : World} : Move plan w w.resetNodes
  | cancelled {w : World} (f : FutureId) : Move plan w (w.cancel f)
  | turned {w : World} : Move plan w w.beginTurn
  /-- A loop is opened that no future belongs to yet. -/
  | opened {w : World} (n : Nat) (main : w.agenda.loop = 0) (other : n ≠ 0)
      (new : ∀ f x, w.future? f = some x → x.loop ≠ n) : Move plan w (w.openLoop n)
  | closed {w : World} (alone : w.agenda.loop ≠ 0) : Move plan w w.dropLoop

abbrev Moves (plan : Plan) : World → World → Prop := Relation.ReflTransGen (Move plan)

/-- A state that moves lead to from a fresh machine. -/
inductive Reachable (plan : Plan) : World → Prop where
  | fresh {w : World} (h : w.Fresh) : Reachable plan w
  | move {w w' : World} (h : Reachable plan w) (m : Move plan w w') : Reachable plan w'

/-- What a cancellation does: it ends plain futures, and leaves word with joint futures and tasks. -/
inductive Interrupted : World → World → Prop where
  | refl (w : World) : Interrupted w w
  | settled {w : World} {f : FutureId} {role : Role} (plain : w.purpose? f = some (.plain role)) :
      Interrupted w (w.settle f (.cancelled none))
  | asked {w : World} {f : FutureId} {children : List FutureId} {ended : Nat} {requested : Bool}
      (joint : w.purpose? f = some (.joint children ended requested)) :
      Interrupted w (w.repurpose f (.joint children ended true))
  | told {w : World} {f : FutureId} {position : Position} {waiting : Option FutureId}
      {mustCancel : Bool} (task : w.purpose? f = some (.task position waiting mustCancel)) :
      Interrupted w (w.repurpose f (.task position waiting true))
  | trans {w₁ w₂ w₃ : World} (first : Interrupted w₁ w₂) (second : Interrupted w₂ w₃) :
      Interrupted w₁ w₃

def Purpose.agrees : Purpose → Purpose → Prop
  | .plain role, .plain role' => role' = role
  | .joint children ended _, .joint children' ended' _ => children' = children ∧ ended' = ended
  | .task position waiting _, .task position' waiting' _ =>
    position' = position ∧ waiting' = waiting
  | _, _ => False

theorem Purpose.agrees_refl (p : Purpose) : Purpose.agrees p p := by
  cases p <;> simp [Purpose.agrees]

theorem Purpose.agrees_trans {p q r : Purpose} (h : Purpose.agrees p q) (h' : Purpose.agrees q r) :
    Purpose.agrees p r := by
  cases p <;> cases q <;> cases r <;> simp_all [Purpose.agrees]

variable {w w' : World}

namespace Interrupted

theorem purpose? (h : Interrupted w w') {f : FutureId} {p : Purpose}
    (found : w.purpose? f = some p) : ∃ p', w'.purpose? f = some p' ∧ Purpose.agrees p p' := by
  have changed {w : World} {f g : FutureId} {p p' q : Purpose} (own : w.purpose? g = some q)
      (agrees : Purpose.agrees q p') (found : w.purpose? f = some p) :
      ∃ r, (w.repurpose g p').purpose? f = some r ∧ Purpose.agrees p r := by
    rw [purpose?_repurpose]
    split
    · rename_i same
      subst same
      obtain rfl : p = q := Option.some.inj (found.symm.trans own)
      exact ⟨p', by rw [found]; rfl, agrees⟩
    · exact ⟨p, found, Purpose.agrees_refl p⟩
  induction h generalizing p with
  | refl _ => exact ⟨p, found, Purpose.agrees_refl p⟩
  | settled _ => exact ⟨p, purpose?_settle.trans found, Purpose.agrees_refl p⟩
  | asked joint => exact changed joint ⟨rfl, rfl⟩ found
  | told task => exact changed task ⟨rfl, rfl⟩ found
  | trans _ _ ih ih' =>
    obtain ⟨q, there, agrees⟩ := ih found
    obtain ⟨r, there', agrees'⟩ := ih' there
    exact ⟨r, there', Purpose.agrees_trans agrees agrees'⟩

theorem within (depth : Nat) (f : FutureId) (w : World) :
    Interrupted w (cancelWithin depth f w).2 := by
  induction depth generalizing f w with
  | zero => exact .refl w
  | succ depth ih =>
    unfold cancelWithin
    split
    · exact .refl w
    · rename_i x found
      have own : w.purpose? f = some x.purpose := by simp [World.purpose?, found]
      split
      · exact .refl w
      · split
        · rename_i role plain
          exact .settled (plain ▸ own)
        · rename_i children ended requested joint
          -- the request has reached the children; the joint future is asked last
          have passed (l : List FutureId) (acc : Bool × World) :
              Interrupted acc.2 (l.foldl (fun acc child =>
                (acc.1 || (cancelWithin depth child acc.2).1, (cancelWithin depth child acc.2).2)) acc).2 := by
            induction l generalizing acc with
            | nil => exact .refl _
            | cons c rest again =>
              exact (ih c acc.2).trans (again (acc.1 || (cancelWithin depth c acc.2).1,
                (cancelWithin depth c acc.2).2))
          have all := passed children (false, w)
          dsimp only at all ⊢
          split
          · obtain ⟨p, there, agrees⟩ := all.purpose? own
            rw [joint] at agrees
            cases p with
            | joint children' ended' requested' =>
              obtain ⟨rfl, rfl⟩ := agrees
              exact all.trans (.asked there)
            | plain _ => exact agrees.elim
            | task _ _ _ => exact agrees.elim
          · exact all
        · rename_i position waiting mustCancel task
          have told {w₁ : World} (passed : Interrupted w w₁) :
              Interrupted w (w₁.repurpose f (.task position waiting true)) := by
            obtain ⟨p, there, agrees⟩ := passed.purpose? own
            rw [task] at agrees
            cases p with
            | task position' waiting' mustCancel' =>
              obtain ⟨rfl, rfl⟩ := agrees
              exact passed.trans (.told there)
            | plain _ => exact agrees.elim
            | joint _ _ _ => exact agrees.elim
          cases waiting with
          | none => exact told (.refl w)
          | some g =>
            dsimp only
            split
            · exact ih g w
            · exact told (ih g w)

end Interrupted

theorem jobs_dropLoop : w.dropLoop.jobs.Subperm w.jobs := by
  refine List.Sublist.subperm ?_
  simp only [jobs, dropLoop, List.map_nil, List.append_nil]
  have parked := (List.sublist_append_right w.agenda.ready w.agenda.parked).trans
    (List.sublist_append_left _ (w.agenda.timers.map (·.job)))
  exact parked.append (.refl _)

theorem jobs_openLoop (n : Nat) : (w.openLoop n).jobs.Subperm w.jobs := by
  refine List.Sublist.subperm ?_
  simp only [jobs, openLoop, List.map_nil, List.append_nil, List.nil_append]
  have ready := (List.sublist_append_left w.agenda.ready w.agenda.parked).trans
    (List.sublist_append_left _ (w.agenda.timers.map (·.job)))
  exact ready.append (.refl _)

theorem cancel_interrupted (f : FutureId) : Interrupted w (w.cancel f) := .within _ f w

theorem Grown.interrupted (h : Interrupted w w') : Grown w w' := by
  induction h with
  | refl w => exact .refl w
  | settled _ => exact .settle
  | asked joint => exact .repurpose joint rfl
  | told task => exact .repurpose task rfl
  | trans _ _ ih ih' => exact ih.trans ih'

/-! ### Moves -/

theorem Move.grown {plan : Plan} (steady : w.Steady) (m : Move plan w w') : Grown w w' := by
  cases m with
  | stepped h => exact .change (step_change steady h)
  | supplied heap => exact .aside rfl rfl rfl rfl
  | called r _ => exact .newTask r
  | observed f => exact .onSettled
  | cleared => exact .aside rfl rfl rfl rfl
  | cancelled f => exact .interrupted (cancel_interrupted f)
  | turned => exact .aside rfl rfl rfl rfl
  | opened n _ _ _ => exact .aside rfl rfl rfl rfl
  | closed _ => exact .aside rfl rfl rfl rfl

theorem Moves.work {plan : Plan} (fuel : Nat) (callers : List Caller) (w : World) :
    Moves plan w (work plan fuel callers w).2 := by
  induction fuel generalizing callers w with
  | zero => exact .refl
  | succ fuel ih =>
    unfold World.work
    split
    · exact .refl
    · rename_i w₁ stepped
      exact .head (.stepped stepped) (ih _ w₁)

theorem Reachable.moves {plan : Plan} (h : Reachable plan w) (m : Moves plan w w') :
    Reachable plan w' := by
  induction m with
  | refl => exact h
  | tail _ last ih => exact .move ih last

def unused (plan : Plan) : World := { nodes := Array.replicate plan.tree.nodeCount {} }

/-- The state to which so many steps lead after a first run is started without args. -/
def firstRun (plan : Plan) (n : Nat) : World :=
  (work plan n [] ((unused plan).newTask (.runner .null)).2).2

theorem reachable_firstRun (plan : Plan) (n : Nat) : Reachable plan (firstRun plan n) := by
  have fresh : Fresh (unused plan) := ⟨rfl, rfl, rfl, rfl, rfl, rfl⟩
  have called : Reachable plan ((unused plan).newTask (.runner .null)).2 :=
    .move (.fresh fresh) (.called (.runner .null) rfl)
  exact called.moves (.work n [] _)

end World

end Conductor
