import Wiring.Placeholder
import Wiring.Property.Sources

/-!
# Environments

An environment answers properties from its sources and knows the active profiles.
-/

namespace Wiring

structure Environment where
  sources : PropertySources := {}
  /-- Profiles set explicitly.  When there are none, a property names them. -/
  profiles : List String := []
  /-- Sources cannot be added or removed. -/
  isReadOnly : Bool := false
deriving Inhabited

namespace Environment

def activeProfilesProperty : String := "spring.profiles.active"

def property? (env : Environment) (key : String) : Option String := env.sources.property? key

def activeProfiles (env : Environment) : List String :=
  if env.profiles.isEmpty then
    match env.property? activeProfilesProperty with
    | some value => Text.tokens (· = ',') value
    | none => []
  else env.profiles

/-- The profiles that count as active while none is. -/
def defaultProfiles : List String := ["default"]

def isActive (env : Environment) (profile : String) : Bool :=
  if env.activeProfiles.isEmpty then defaultProfiles.contains profile
  else env.activeProfiles.contains profile

/-- One of the profiles is active.  An exclamation mark in front asks for the opposite. -/
def acceptsProfiles (env : Environment) (profiles : List String) : Bool :=
  profiles.any fun profile =>
    match Text.after? "!" (Text.trim profile) with
    | some negated => !env.isActive (Text.trim negated)
    | none => env.isActive (Text.trim profile)

def resolveStrict (env : Environment) (text : String) : Except Placeholder.Failure String :=
  Placeholder.resolveStrict env.property? text

def resolveLenient (env : Environment) (text : String) : String :=
  Placeholder.resolveLenient env.property? text

/-- Changes the sources, unless the environment is read-only. -/
def modifySources (env : Environment) (f : PropertySources → PropertySources) : Environment :=
  if env.isReadOnly then env else { env with sources := f env.sources }

end Environment
end Wiring
