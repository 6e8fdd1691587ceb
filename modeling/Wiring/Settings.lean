import Wiring.LogFilter
import Wiring.Resource
import Wiring.Toml.Reader

/-!
# Settings

The settings of a resolver are a TOML text with the tables `parser` and `logging`.  Keys that
are left out take defaults; keys that are not known are passed over and can be listed.
-/

namespace Wiring

structure ResolutionSettings where
  platformStart : String := "java"
  exclusions : List String := ["java.lang.annotation.", "org.springframework.stereotype."]
  maxDepth : Nat := 256
  isFailFast : Bool := false
deriving Repr, DecidableEq

structure LoggingSettings where
  level : String := "info"
  isJson : Bool := false
deriving Repr, DecidableEq

structure Settings where
  resolution : ResolutionSettings := {}
  logging : LoggingSettings := {}
deriving Repr, DecidableEq

/-- A setting whose value makes no sense. -/
inductive SettingsFault where
  | emptyPlatform
  | zeroDepth
deriving Repr, DecidableEq

def SettingsFault.message : SettingsFault → String
  | emptyPlatform => "parser.platform_prefix must not be empty"
  | zeroDepth => "parser.max_depth must be at least 1"

/-- A setting that is probably not meant. -/
inductive SettingsWarning where
  /-- It would exclude every class, and is not counted. -/
  | blankExclusion (index : Nat)
  | invalidLevel (level : String)
deriving Repr, DecidableEq

inductive SettingsError where
  | unreadable (path : String)
  /-- No TOML, or values of the wrong type. -/
  | toml
  | invalid (fault : SettingsFault)
deriving Repr, DecidableEq

def SettingsError.message : SettingsError → String
  | unreadable path => "failed to read config file " ++ path
  | toml => "failed to parse toml config"
  | invalid fault => "invalid config: " ++ fault.message

namespace Settings

def faults (s : Settings) : List SettingsFault :=
  (if Text.isBlankText s.resolution.platformStart then [.emptyPlatform] else []) ++
    (if s.resolution.maxDepth = 0 then [.zeroDepth] else [])

def warnings (s : Settings) : List SettingsWarning :=
  (s.resolution.exclusions.zipIdx.filter (Text.isBlankText ·.1)).map (.blankExclusion ·.2) ++
    (if (LogFilter.ofSetting? s.logging.level).isSome then []
      else [.invalidLevel s.logging.level])

/-! A table is read field by field, and so is an array that gives the fields in order. -/

open Toml (Value)

/-- The values of the fields, and the keys that are no fields.  A date counts as a table with
one key of its own. -/
def record (names : List String) : Value → Option (List (Option Value) × List String)
  | .table _ es =>
    some (names.map fun name => es.lookup name, (es.map (·.1)).filter (!names.contains ·))
  | .array vs => some (names.zipIdx.map fun (_, i) => vs[i]?, [])
  | .tables last before =>
    let vs := (before ++ [last]).map (Value.table .headed)
    some (names.zipIdx.map fun (_, i) => vs[i]?, [])
  | .datetime => some (names.map fun _ => none, ["$__toml_private_datetime"])
  | _ => none

def withDefault (default : α) (read : Value → Option α) : Option Value → Option α
  | none => some default
  | some v => read v

def text? : Value → Option String
  | .string s => some s
  | _ => none

def bool? : Value → Option Bool
  | .bool b => some b
  | _ => none

def nat? : Value → Option Nat
  | .int i => if 0 ≤ i then some i.toNat else none
  | _ => none

def texts? : Value → Option (List String)
  | .array vs => vs.mapM text?
  | _ => none

/-- A value that was read, with the keys not known in it. -/
abbrev WithUnknown (α : Type) := α × List String

def resolution? (v : Value) : Option (WithUnknown ResolutionSettings) := do
  let (fields, unknown) ←
    record ["platform_prefix", "exclusion_prefixes", "max_depth", "fail_fast"] v
  let default : ResolutionSettings := {}
  match fields with
  | [platformStart, exclusions, maxDepth, isFailFast] =>
    return ({
      platformStart := ← withDefault default.platformStart text? platformStart
      exclusions := ← withDefault default.exclusions texts? exclusions
      maxDepth := ← withDefault default.maxDepth nat? maxDepth
      isFailFast := ← withDefault default.isFailFast bool? isFailFast }, unknown)
  | _ => none

def logging? (v : Value) : Option (WithUnknown LoggingSettings) := do
  let (fields, unknown) ← record ["level", "json"] v
  let default : LoggingSettings := {}
  match fields with
  | [level, isJson] =>
    return ({
      level := ← withDefault default.level text? level
      isJson := ← withDefault default.isJson bool? isJson }, unknown)
  | _ => none

/-- The path of a key that is not known, without dots at its start. -/
def dotted (path : List String) : String :=
  String.ofList ((String.intercalate "." path).toList.dropWhile (· = '.'))

/-- The settings of a document, and the paths of the keys not known in it. -/
def ofDocument? (es : Toml.Entries) : Option (WithUnknown Settings) := do
  let (resolution, inResolution) ←
    withDefault ({}, []) resolution? (es.lookup "parser")
  let (logging, inLogging) ← withDefault ({}, []) logging? (es.lookup "logging")
  let others := (es.map (·.1)).filter fun k => k ≠ "parser" && k ≠ "logging"
  return ({ resolution, logging },
    others.map (dotted [·]) ++ inResolution.map (dotted ["parser", ·]) ++
      inLogging.map (dotted ["logging", ·]))

def parse? (text : String) : Option (WithUnknown Settings) :=
  (Toml.parse? text).bind ofDocument?

/-- The settings of a text.  The first fault refuses them. -/
def load (text : String) : Except SettingsError Settings :=
  match parse? text with
  | none => .error .toml
  | some (s, _) =>
    match s.faults with
    | [] => .ok s
    | fault :: _ => .error (.invalid fault)

end Settings

/-- What there is to say about settings that could be read. -/
structure Diagnostics where
  /-- Paths of keys that are not known, sorted and without repetition. -/
  unknownKeys : List String
  warnings : List SettingsWarning
  faults : List SettingsFault
deriving Repr, DecidableEq

namespace Diagnostics

def isEmpty (d : Diagnostics) : Bool :=
  d.unknownKeys.isEmpty && d.warnings.isEmpty && d.faults.isEmpty

def isOk (d : Diagnostics) : Bool := d.faults.isEmpty

end Diagnostics

namespace Settings

/-- The settings of a text with all that there is to say about them. -/
def diagnose (text : String) : Except SettingsError (Settings × Diagnostics) :=
  match parse? text with
  | none => .error .toml
  | some (s, unknown) =>
    .ok (s, {
      unknownKeys := unknown.eraseDups.mergeSort (· ≤ ·)
      warnings := s.warnings
      faults := s.faults })

/-- The settings in a file. -/
def loadFile (tree : FileTree) (path : String) : Except SettingsError Settings :=
  match tree.readText? path with
  | some text => load text
  | none => .error (.unreadable path)

end Settings
end Wiring
