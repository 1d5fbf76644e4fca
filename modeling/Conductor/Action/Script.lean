import Conductor.Value.Template

/-!
# Scripts

What an action does, as a list of steps: it reads and writes the shared args, uses its completion,
fails, waits, schedules work for later, starts another run, and returns something that may have to
be waited for.
-/

namespace Conductor

inductive FutureEnd where
  | ok
  | fail (name : String) (message : Option String)
  | cancel
  deriving Repr

inductive Step where
  | log (text : Template)
  | see
  | get (key : Template)
  | commit (type key : Template)
  | set (key value : Template)
  | delete (key : Template)
  | append (key value : Template)
  | call (arguments : List Template)
  | attribute (name : String) (arguments : List Template)
  | stash (slot : String)
  | use (slot : String) (arguments : List Template)
  | raise (name : String) (message : Option String)
  | raiseShared (slot name : String) (message : Option String)
  | later (ticks : Nat) (steps : List Step)
  | soon (steps : List Step)
  | attempt (steps : List Step)
  | choose (key value : Template) (yes no : List Step)
  | sleep (ticks : Nat)
  | run (args : Template)
  | finish (result : Template)
  | finishRoutine (steps : List Step)
  | finishFuture (ticks : Option Nat) (how : FutureEnd)
  deriving Repr, Inhabited

/-- What is left of a script: the steps left in the attempts that are open, innermost first, and the
steps after them. -/
structure Remainder where
  attempts : List (List Step) := []
  steps : List Step
  deriving Repr

namespace Remainder

def before (r : Remainder) (rest : List Step) : Remainder := { r with steps := r.steps ++ rest }

/-- The remainder of a script of which `r` is left in its innermost attempt. -/
def within (r : Remainder) (outer : List (List Step)) (rest : List Step) : Remainder :=
  ⟨r.attempts ++ r.steps :: outer, rest⟩

end Remainder

end Conductor
