/-!
# Settings

What a user may choose for an analysis and for the validator of points-to graphs, and presets that
choose for him. A limit on the iterations of an analysis has to lie in `iterationRange`; settings
with another one can be made, and are refused when they are used.
-/

namespace MemDep

/-- A choice of analysis. -/
inductive Preset where
  /-- Definitions on demand, in static single assignment form. -/
  | fast
  /-- Reaching definitions by iteration. -/
  | balanced
deriving DecidableEq, Repr, Inhabited

namespace Preset

/-- Every preset. -/
def all : List Preset := [fast, balanced]

/-- The name of a preset. -/
def name : Preset → String
  | fast => "fast"
  | balanced => "balanced"

/-- The preset with exactly this name. -/
def ofName? (s : String) : Option Preset := all.find? (·.name == s)

/-- The preset with this name in any mixture of capital and small letters. Only the letters of
ASCII matter: no other character has a small form that occurs in a name. -/
def ofText? (s : String) : Option Preset := ofName? (String.ofList (s.toList.map Char.toLower))

end Preset

/-- How memory dependences are computed. -/
structure AnalysisSettings where
  /-- Look definitions up on demand, in static single assignment form, instead of iterating. -/
  useSsa : Bool
  /-- Ignore byte ranges: every access is one to its whole object. -/
  fieldInsensitive : Bool
  /-- How many visits an iteration may take; any number, if there is no limit. -/
  maxIterations : Option Nat
deriving DecidableEq, Repr

/-- The bound of the limits that can be written down. -/
def limitBound : Nat := UInt64.size

namespace AnalysisSettings

/-- The settings of a preset. -/
def ofPreset : Preset → AnalysisSettings
  | .fast => ⟨true, false, none⟩
  | .balanced => ⟨false, false, none⟩

instance : Inhabited AnalysisSettings := ⟨ofPreset .balanced⟩

/-- The largest limit on iterations. -/
def iterationBound : Nat := 100000000

/-- The limit on iterations, if it is out of range. -/
def badLimit? (s : AnalysisSettings) : Option Nat :=
  s.maxIterations.filter fun n => n = 0 || iterationBound < n

end AnalysisSettings

/-- What the validator of points-to graphs checks. -/
structure ValidatorSettings where
  /-- Report nodes that the root does not lead to. -/
  checkConnectivity : Bool
deriving DecidableEq, Repr

instance : Inhabited ValidatorSettings := ⟨⟨true⟩⟩

/-- The settings of a program. -/
structure Configuration where
  /-- Those of analyses. -/
  analysis : AnalysisSettings
  /-- Those of the validator. -/
  validator : ValidatorSettings
deriving DecidableEq, Repr, Inhabited

/-- The configuration of a preset. -/
def Configuration.ofPreset (p : Preset) : Configuration := ⟨.ofPreset p, default⟩

/-- Why a configuration is refused. -/
inductive ConfigurationError where
  /-- The limit on iterations is out of range. -/
  | limitOutOfRange (limit : Nat)
  /-- The file does not say which version of the format it is in. -/
  | missingVersion
  /-- The file is in another version of the format. -/
  | unsupportedVersion (found : Nat)
  /-- There is no such preset. -/
  | unknownPreset (name : String)
  /-- The file is malformed, or a value in it is of another kind than it has to be. -/
  | malformed
  /-- The file cannot be read as text. -/
  | unreadable
deriving DecidableEq, Repr

/-- An error in words. What is wrong with a malformed or unreadable file is not told. -/
def ConfigurationError.message : ConfigurationError → String
  | limitOutOfRange limit =>
    s!"Invalid range for field 'max_iterations': {limit} not in 1..={AnalysisSettings.iterationBound}. " ++
      "Use None for an unbounded fixpoint"
  | missingVersion =>
    "Missing 'version' field in configuration file. Add 'version: 1' to the top of your YAML file."
  | unsupportedVersion found =>
    s!"Unsupported configuration version {found}. Supported versions: 1"
  | unknownPreset name => s!"Unknown preset '{name}'. Valid presets: fast, balanced"
  | malformed => "YAML parsing error"
  | unreadable => "IO error"

/-- Refuses settings with a limit out of range. -/
def AnalysisSettings.validate (s : AnalysisSettings) : Except ConfigurationError Unit :=
  match s.badLimit? with
  | some limit => .error (.limitOutOfRange limit)
  | none => .ok ()

end MemDep
