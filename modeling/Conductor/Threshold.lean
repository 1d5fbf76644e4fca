import Conductor.Settings
import Conductor.Value.Template

/-!
# Log thresholds

The threshold of the log is named by a configuration. A name is looked up among the attributes of
the logging facility: the level names stand for numbers, a few other names for texts or switches,
and the rest for facilities that are known here only by their type. An unknown name means the
ordinary level.
-/

namespace Conductor

inductive Threshold where
  | number (n : Nat)
  | switch (on : Bool)
  | text (s : String)
  | other (type : String)
  deriving DecidableEq, Repr

namespace Threshold

def levels : List (String × Nat) := [
  ("CRITICAL", 50), ("DEBUG", 10), ("ERROR", 40), ("FATAL", 50), ("INFO", 20), ("NOTSET", 0), ("WARN", 30),
  ("WARNING", 30)]

def texts : List (String × String) := [
  ("__name__", "logging"),
  ("__package__", "logging"),
  ("__status__", "production"),
  ("__version__", "0.5.1.2"),
  ("__date__", "07 February 2010"),
  ("BASIC_FORMAT", "%(levelname)s:%(name)s:%(message)s")]

/-- The names of switches, all of them on. -/
def switches : List String := [
  "logMultiprocessing", "logProcesses", "logThreads", "raiseExceptions"]

/-- The other names, by the type of what they name. -/
def facilities : List (String × List String) := [
  ("_StderrHandler", [
    "_defaultLastResort", "lastResort"]),
  ("dict", [
    "_STYLES", "__annotations__", "__builtins__", "__dict__", "_levelToName", "_nameToLevel"]),
  ("float", [
    "_startTime"]),
  ("Formatter", [
    "_defaultFormatter", "_str_formatter"]),
  ("function", [
    "_acquireLock", "_addHandlerRef", "_after_at_fork_child_reinit_locks", "_checkLevel",
    "_is_internal_frame", "_register_at_fork_reinit_lock", "_releaseLock", "_removeHandlerRef",
    "_showwarning", "addLevelName", "basicConfig", "captureWarnings", "critical", "currentframe",
    "debug", "disable", "error", "exception", "fatal", "getLevelName", "getLevelNamesMapping",
    "getLogRecordFactory", "getLogger", "getLoggerClass", "info", "log", "makeLogRecord",
    "setLogRecordFactory", "setLoggerClass", "shutdown", "warn", "warning"]),
  ("builtin_function_or_method", [
    "__dir__", "__format__", "__getstate__", "__init_subclass__", "__new__", "__reduce__",
    "__reduce_ex__", "__sizeof__", "__subclasshook__"]),
  ("list", [
    "__all__", "__path__", "_handlerList"]),
  ("method-wrapper", [
    "__delattr__", "__eq__", "__ge__", "__getattribute__", "__gt__", "__hash__", "__init__",
    "__le__", "__lt__", "__ne__", "__repr__", "__setattr__", "__str__"]),
  ("module", [
    "atexit", "collections", "io", "os", "re", "sys", "threading", "time", "traceback",
    "warnings", "weakref"]),
  ("ModuleSpec", [
    "__spec__"]),
  ("NoneType", [
    "_warnings_showwarning"]),
  ("RLock", [
    "_lock"]),
  ("RootLogger", [
    "root"]),
  ("SourceFileLoader", [
    "__loader__"]),
  ("type", [
    "BufferingFormatter", "FileHandler", "Filter", "Filterer", "Formatter", "GenericAlias",
    "Handler", "LogRecord", "Logger", "LoggerAdapter", "Manager", "NullHandler", "PercentStyle",
    "PlaceHolder", "RootLogger", "StrFormatStyle", "StreamHandler", "StringTemplateStyle",
    "Template", "__class__", "_StderrHandler", "_logRecordFactory", "_loggerClass"]),
  ("WeakSet", [
    "_at_fork_reinit_lock_weakset"]),
  ("WeakValueDictionary", [
    "_handlers"])]

def info : Threshold := number 20

def debug : Threshold := number 10

/-- What a name stands for, with what the facility at hand says of itself under further names. -/
def named (imprint : List (String × String)) (name : String) : Threshold :=
  match levels.lookup name with
  | some n => number n
  | none =>
    match (texts ++ imprint).lookup name with
    | some s => text s
    | none =>
      if name ∈ switches then switch true
      else match facilities.find? fun f => name ∈ f.2 with
        | some (type, _) => other type
        | none => info

/-- The threshold of a configuration: debugging, or whatever its level names. -/
def ofConfiguration (imprint : List (String × String)) (c : Configuration) : Threshold :=
  if c.debug then debug else named imprint c.logLevel

/-- The threshold of debugging, or of a written level, which has to be a text. -/
def ofTemplate (imprint : List (String × String)) (isDebug : Bool) (level : Template) : Except Fault Threshold :=
  if isDebug then .ok debug
  else match (level.make {}).1 with
    | .error f => .error f
    | .ok (.atom (.text name)) => .ok (named imprint name)
    | .ok v => .error (.attributeNameNotText v.typeName)

end Threshold

def logFormat : String := "%(asctime)s - %(name)s - %(levelname)s - %(message)s"

end Conductor
