/-!
# Policies of completion descriptors

Which of the results that an action reports a descriptor keeps.
-/

namespace Conductor

/-- Which results a descriptor keeps: of a sequential node the latest before it is collected, of a
group member the first. A plain descriptor keeps none. -/
inductive Policy where
  | plain
  | sequential
  | concurrent
  deriving DecidableEq, Repr, Inhabited

def Policy.name : Policy → String
  | plain => "Completion"
  | sequential => "SyncCompletion"
  | concurrent => "AsyncCompletion"

end Conductor
