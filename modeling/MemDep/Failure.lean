import MemDep.Analysis

/-!
# Failures

Everything that can go wrong, as one type.
-/

namespace MemDep

/-- A failure of some part of the library. -/
inductive Failure where
  /-- An analysis refused a call. -/
  | analysis (cause : AnalysisError)
  /-- A configuration was refused. -/
  | configuration (cause : ConfigurationError)
  /-- A points-to graph is malformed in so many ways. -/
  | invalidPointerGraph (count : Nat)
deriving DecidableEq, Repr

/-- A failure in words. -/
def Failure.message : Failure → String
  | analysis cause => "Data dependence error: " ++ cause.message
  | configuration cause => "Configuration error: " ++ cause.message
  | invalidPointerGraph count => s!"Invalid points-to graph ({count} violations)"

end MemDep
