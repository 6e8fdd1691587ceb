import Wiring.Metadata.Index
import Wiring.Placeholder
import Wiring.Problem
import Wiring.Property.Sources
import Wiring.Resource

/-!
# Failures

Why a run ends without a result.  A failure is attributed once to the configuration class it
arose in: an attributed failure and a reported problem pass the outer classes unchanged.
-/

namespace Wiring

/-- The kinds of strategy that a type can produce. -/
inductive StrategyKind where
  | selector
  | deferredSelector
  | registrar
  | group
  | sourceFactory
  | condition
deriving Repr, DecidableEq

def StrategyKind.phrase : StrategyKind → String
  | selector => "an import selector"
  | deferredSelector => "a deferred import selector"
  | registrar => "an import bean definition registrar"
  | group => "a deferred import group"
  | sourceFactory => "a property source factory"
  | condition => "a condition"

/-- What was being done to a configuration class when a failure arose. -/
inductive Activity where
  | parsing
  | importingCandidates
deriving Repr, DecidableEq

inductive Failure where
  | metadata (className : String) (cause : MetadataError)
  | classNotFound (className : String)
  | missingClassName (beanName : String)
  | placeholder (cause : Placeholder.Failure)
  | resource (description : String) (cause : IoError)
  | missingLocation (className : String)
  | propertySource (cause : SourcesError)
  | instantiation (className cause : String)
  | strategyMismatch (className : String) (expected actual : StrategyKind)
  | tooDeep (className : String) (limit : Nat)
  | unknownOrigin (className : String)
  | problem (p : Problem)
  | attributed (activity : Activity) (className : String) (cause : Failure)
  /-- The run nests deeper than the bound of its definition. -/
  | exhausted
deriving Repr, DecidableEq

namespace Failure

def message : Failure → String
  | metadata name _ => "failed to read metadata for class [" ++ name ++ "]"
  | classNotFound name => "class [" ++ name ++ "] cannot be loaded"
  | missingClassName bean =>
    "no bean class name for configuration class bean definition [" ++ bean ++ "]"
  | placeholder cause => cause.message
  | resource description _ => "failed to load " ++ description
  | missingLocation name =>
    "at least one @PropertySource(value) location is required on [" ++ name ++ "]"
  | propertySource cause => cause.message
  | instantiation name _ => "failed to instantiate [" ++ name ++ "]"
  | strategyMismatch name expected actual =>
    "[" ++ name ++ "] was expected to produce " ++ expected.phrase ++ " but produced " ++
      actual.phrase
  | tooDeep name limit =>
    "configuration classes nested deeper than " ++ toString limit ++ " levels at [" ++ name ++ "]"
  | unknownOrigin name =>
    "deferred import originates from unknown configuration class [" ++ name ++ "]"
  | problem p => p.message
  | attributed .parsing name _ => "Failed to parse configuration class [" ++ name ++ "]"
  | attributed .importingCandidates name _ =>
    "Failed to process import candidates for configuration class [" ++ name ++ "]"
  | exhausted => "configuration classes are nested too deep"

/-- A property source that may be absent is left out on this failure: the placeholders of its
location cannot be resolved, or nothing is at the location. -/
def isMissingResource : Failure → Bool
  | placeholder _ => true
  | resource _ cause => cause.kind = .notFound
  | _ => false

/-- Attributes the failure to a configuration class, unless that is done or it is a reported
problem. -/
def within (activity : Activity) (className : String) : Failure → Failure
  | problem p => problem p
  | attributed a c cause => attributed a c cause
  | cause => attributed activity className cause

end Failure
end Wiring
