import MemDep.Json.Decode
import MemDep.Settings

/-!
# Settings in JSON

How settings are written and read. Whatever is left out has its default, and other fields than those
of the settings are refused.
-/

namespace MemDep

namespace AnalysisSettings

/-- Settings in JSON. -/
def toJson (s : AnalysisSettings) : Json :=
  .obj [("use_ssa", .bool s.useSsa), ("field_insensitive", .bool s.fieldInsensitive),
    ("max_iterations", (s.maxIterations.map .nat).getD .null)]

/-- Reads settings. -/
def ofJson? (j : Json) : Option AnalysisSettings := do
  let fields ← j.strictRecord? ["use_ssa", "field_insensitive", "max_iterations"]
  let { useSsa, fieldInsensitive, maxIterations } := (default : AnalysisSettings)
  let useSsa ← fields.withDefault? "use_ssa" Json.bool? useSsa
  let fieldInsensitive ← fields.withDefault? "field_insensitive" Json.bool? fieldInsensitive
  let maxIterations ←
    fields.withDefault? "max_iterations" (Json.optional? (Json.nat? limitBound)) maxIterations
  return ⟨useSsa, fieldInsensitive, maxIterations⟩

end AnalysisSettings

namespace ValidatorSettings

/-- Settings in JSON. -/
def toJson (s : ValidatorSettings) : Json := .obj [("check_connectivity", .bool s.checkConnectivity)]

/-- Reads settings. -/
def ofJson? (j : Json) : Option ValidatorSettings := do
  let fields ← j.strictRecord? ["check_connectivity"]
  let checkConnectivity ←
    fields.withDefault? "check_connectivity" Json.bool? (default : ValidatorSettings).checkConnectivity
  return ⟨checkConnectivity⟩

end ValidatorSettings

namespace Preset

/-- A preset in JSON. -/
def toJson (p : Preset) : Json := .str p.name

/-- Reads a preset. -/
def ofJson? (j : Json) : Option Preset := j.name? ofName?

end Preset

end MemDep
