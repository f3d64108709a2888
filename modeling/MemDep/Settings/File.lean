import MemDep.Settings
import MemDep.Yaml.Decode

/-!
# Configuration files

A configuration file is a document in YAML. It says the version of the format it is in and, if it
wants to, a preset and what differs from it:

    version: 1
    preset: fast
    data_dependence:
      field_insensitive: true
    validator:
      check_connectivity: false

Whatever is left out or empty is as in the preset, and the preset is `balanced` if there is none.
-/

namespace MemDep

open Yaml

/-- The only version of the format. -/
def supportedVersion : Nat := 1

/-- The bound of the numbers of versions. -/
def versionBound : Nat := UInt32.size

/-- The answer to a name that no preset has. -/
def Preset.unknownMessage (name : String) : String := s!"Unknown preset: {name}"

/-- What a file says about analyses. -/
structure AnalysisOverrides where
  /-- The choice of analysis. -/
  useSsa : Option Bool
  /-- Whether to ignore byte ranges. -/
  fieldInsensitive : Option Bool
  /-- The limit on iterations. -/
  maxIterations : Option Nat

namespace AnalysisOverrides

/-- Reads what a file says about analyses. -/
def ofYaml? (d : Document) (n : Node) : Option AnalysisOverrides := do
  let fields ← d.record? ["use_ssa", "field_insensitive", "max_iterations"] n
  return {
    useSsa := ← optionalField? fields "use_ssa" Node.bool?
    fieldInsensitive := ← optionalField? fields "field_insensitive" Node.bool?
    maxIterations := ← optionalField? fields "max_iterations" (Node.nat? limitBound) }

/-- Settings with what a file says put in their place. -/
def apply (o : AnalysisOverrides) (s : AnalysisSettings) : AnalysisSettings where
  useSsa := o.useSsa.getD s.useSsa
  fieldInsensitive := o.fieldInsensitive.getD s.fieldInsensitive
  maxIterations := o.maxIterations.or s.maxIterations

end AnalysisOverrides

/-- Reads the settings of the validator. -/
def ValidatorSettings.ofYaml? (d : Document) (n : Node) : Option ValidatorSettings := do
  let fields ← d.record? ["check_connectivity"] n
  let checkConnectivity ← fieldWithDefault? fields "check_connectivity" Node.bool?
    (default : ValidatorSettings).checkConnectivity
  return ⟨checkConnectivity⟩

/-- What a file says. -/
structure ConfigurationFile where
  /-- The version of its format. -/
  version : Option Nat
  /-- The name of a preset. -/
  preset : Option String
  /-- What it says about analyses. -/
  analysis : Option AnalysisOverrides
  /-- The settings of the validator. -/
  validator : Option ValidatorSettings

/-- Reads what a file says. -/
def ConfigurationFile.ofYaml? (d : Document) : Option ConfigurationFile := do
  let fields ← d.record? ["version", "preset", "data_dependence", "validator"] d.node
  return {
    version := ← optionalField? fields "version" (Node.nat? versionBound)
    preset := ← optionalField? fields "preset" Node.text?
    analysis := ← optionalField? fields "data_dependence" (AnalysisOverrides.ofYaml? d)
    validator := ← optionalField? fields "validator" (ValidatorSettings.ofYaml? d) }

namespace Configuration

/-- The configuration that a file describes. -/
def ofConfigurationFile (f : ConfigurationFile) : Except ConfigurationError Configuration := do
  let some version := f.version | throw .missingVersion
  if version ≠ supportedVersion then
    throw (.unsupportedVersion version)
  let preset ← match f.preset with
    | none => pure .balanced
    | some name => match Preset.ofText? name with
      | some p => pure p
      | none => throw (.unknownPreset name)
  let c := ofPreset preset
  let analysis := (f.analysis.map (·.apply c.analysis)).getD c.analysis
  analysis.validate
  return ⟨analysis, f.validator.getD c.validator⟩

/-- The configuration that a text in YAML describes. -/
def ofYaml (s : String) : Except ConfigurationError Configuration :=
  match (Document.parse? s).bind ConfigurationFile.ofYaml? with
  | some f => ofConfigurationFile f
  | none => .error .malformed

/-- The configuration that the bytes of a file describe, if there is such a file. -/
def ofFile (content : Option ByteArray) : Except ConfigurationError Configuration :=
  match content.bind String.fromUTF8? with
  | some s => ofYaml s
  | none => .error .unreadable

end Configuration

end MemDep
