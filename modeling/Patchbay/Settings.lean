/-
# Settings of a run

Two switches: whether diagnostics go to the log, and whether a warning makes a run fail.
-/
import Patchbay.Json.Basic

namespace Patchbay

/-- How a run treats diagnostics. -/
structure Settings where
  logDiagnostics : Bool := true
  strict : Bool := false
  deriving DecidableEq, Repr, Inhabited

namespace Settings

/-- Lets any warning fail the run. -/
def makeStrict (s : Settings) : Settings := { s with strict := true }

/-- Keeps diagnostics out of the log. -/
def makeQuiet (s : Settings) : Settings := { s with logDiagnostics := false }

/-- Writes the settings. -/
def toJson (s : Settings) : Json :=
  .object [("logDiagnostics", .bool s.logDiagnostics), ("strict", .bool s.strict)]

end Settings
end Patchbay
