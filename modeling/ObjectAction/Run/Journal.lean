/-
What a run says: faults that were passed over, and lines for the log, in the order in which they
arose.
-/
import ObjectAction.Population.Action
import ObjectAction.Run.Fault

namespace ObjectAction

/-- A message about a line of the body with that label. -/
structure Diagnostic where
  label : String
  line : Nat
  message : String
  deriving DecidableEq, Repr

namespace Diagnostic

def text (d : Diagnostic) : String := s!"{d.label}:{d.line}: {d.message}"

/-- Diagnostics one below the other. -/
def render (ds : List Diagnostic) : String := "\n".intercalate (ds.map text)

end Diagnostic

inductive Notice where
  /-- A fault in the body with that label, on that line. -/
  | fault (label : String) (line : Nat) (fault : Fault)
  | log (severity : Severity) (text : String)
  deriving DecidableEq, Repr

/-- The notices of a run, oldest first. -/
abbrev Journal := Array Notice

namespace Journal

def diagnostics (j : Journal) : List Diagnostic :=
  j.toList.filterMap fun
    | .fault label line fault => some ⟨label, line, fault.message⟩
    | .log _ _ => none

end Journal

end ObjectAction
