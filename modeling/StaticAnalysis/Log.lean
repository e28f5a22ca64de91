/-!
# Log lines

What an analysis tells about its run: a text with a level.
-/

namespace StaticAnalysis

inductive LogLevel where
  | debug
  | info
deriving DecidableEq

/-- A line of a log. -/
structure LogLine where
  level : LogLevel
  text : String
deriving DecidableEq

end StaticAnalysis
