import GraphMotif.Plan
import GraphMotif.Text.Quoted
import GraphMotif.Text.UpperCase

/-!
# Settings

How much is logged, what stands in column names between tag and column, and whether parsers report
their steps. The environment may ask for another logging level, in any case; a name that is no
level is ignored with a warning.
-/

namespace GraphMotif

/-- The settings. -/
structure Settings where
  loggingLevel : String
  columnSeparator : String
  parserDebug : Bool
  deriving DecidableEq

namespace Settings

/-- The settings where the environment asks for nothing. -/
def default : Settings where
  loggingLevel := "WARNING"
  columnSeparator := GraphMotif.columnSeparator
  parserDebug := false

/-- The names of the logging levels. -/
def levels : List String :=
  ["CRITICAL", "FATAL", "ERROR", "WARN", "WARNING", "INFO", "DEBUG", "NOTSET"]

/-- The warning about a level that is none. -/
def warning (level : String) : String :=
  "Ignoring PYMOTIF_LOGGING_LEVEL=" ++ quoted level ++ ": not a logging level; using "
    ++ quoted default.loggingLevel

/-- The settings where the environment asks for a level or for nothing, with warnings. -/
def load (level? : Option String) : Settings × List String :=
  match level?.map upperCaseText with
  | none => (default, [])
  | some level =>
    if levels.contains level then ({ default with loggingLevel := level }, [])
    else (default, [warning level])

end Settings

end GraphMotif
