import Conductor.Machine.State

/-!
# The logbook

The lines of the log as they are written: their level, the component that writes them, and their
text. Runs are not told apart in the log; every run goes by the same placeholder.
-/

namespace Conductor

structure LogLine where
  level : String
  component : String
  text : String

namespace LogEntry

def runName : String := "run_#"

def milliseconds (ms : Nat) : String := toString ms ++ ".00ms"

def executorLine (level text : String) : LogLine := ⟨level, "core.executor", text⟩

def line : LogEntry → LogLine
  | compiled nodes actions =>
    ⟨"DEBUG", "compiler.graph_compiler", "Compiled action graph: " ++ toString nodes ++ " nodes, "
      ++ toString actions ++ " distinct actions"⟩
  | started => executorLine "INFO" ("Signal run " ++ runName ++ " started")
  | resolved ms =>
    executorLine "INFO" ("Signal run " ++ runName ++ " resolved in " ++ milliseconds ms)
  | rejected fault =>
    executorLine "ERROR" ("Signal run " ++ runName ++ " rejected: " ++ fault.message)
  | running name path =>
    executorLine "DEBUG"
      ("Running " ++ name.asText ++ " at " ++ Fault.shownItems path.data)
  | completed name path output ms =>
    executorLine "DEBUG"
      ("Completed " ++ name.asText ++ " at " ++ Fault.shownItems path.data ++ " (output="
        ++ output.asText ++ ", " ++ milliseconds ms ++ ")")
  | discardedResult name =>
    executorLine "DEBUG"
      ("Discarding result of " ++ name.asText ++ ", run already settled")
  | discardedFailure name fault =>
    executorLine "DEBUG"
      ("Discarding failure of " ++ name.asText ++ " after run " ++ runName ++ " settled: "
        ++ fault.shown)
  | lateCompletion name =>
    ⟨"DEBUG", "core.completion",
      "Ignoring late completion of sequential action " ++ name.asText⟩

end LogEntry

end Conductor
