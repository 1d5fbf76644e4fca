import Conductor.Text.Uppercase

/-!
# Settings

What the environment says about runs and logs. A flag is on when its text is one of three words,
letter case aside; no character outside ASCII has a lowercase form among the letters of these words,
so ASCII case is all that counts. A configuration is loaded once and kept until it is reset.
-/

namespace Conductor

/-- What a run reports about itself beyond its record. -/
structure Settings where
  traceNodes : Bool := false
  snapshotArgs : Bool := true
  logFailures : Bool := true
  deriving DecidableEq, Repr, Inhabited

structure Configuration where
  execution : Settings := {}
  debug : Bool := false
  logLevel : String := "INFO"
  deriving DecidableEq, Repr, Inhabited

/-- The variables of the environment that are set. -/
abbrev Environment := List (String × String)

namespace Environment

def isYes (s : String) : Bool := Text.lowercaseAscii s ∈ ["true", "1", "yes"]

def flag (env : Environment) (name : String) (unset : Bool) : Bool :=
  match env.lookup name with
  | some s => isYes s
  | none => unset

def configuration (env : Environment) : Configuration where
  execution :=
    { traceNodes := env.flag "TRACE_NODES" false
      snapshotArgs := env.flag "SNAPSHOT_ARGS" true
      logFailures := env.flag "LOG_FAILURES" true }
  debug := env.flag "DEBUG" false
  logLevel := Text.uppercase ((env.lookup "LOG_LEVEL").getD "INFO")

end Environment

/-- The environment with the configuration loaded from it, if one was loaded since the last reset.
`imprint` is what the logging facility at hand says of itself. -/
structure ConfigurationStore where
  environment : Environment := []
  loaded : Option Configuration := none
  imprint : List (String × String) := []

namespace ConfigurationStore

/-- The kept configuration, loaded now if there is none. -/
def get (s : ConfigurationStore) : Configuration × ConfigurationStore :=
  match s.loaded with
  | some c => (c, s)
  | none =>
    let c := s.environment.configuration
    (c, { s with loaded := some c })

def reset (s : ConfigurationStore) : ConfigurationStore := { s with loaded := none }

/-- Changes the environment; a kept configuration stays as it is. -/
def setEnvironment (s : ConfigurationStore) (env : Environment) : ConfigurationStore :=
  { s with environment := env }

end ConfigurationStore

end Conductor
