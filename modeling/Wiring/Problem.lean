import Wiring.Metadata.ClassInfo

/-!
# Problems

A problem is a fault of the configuration that does not keep resolution from going on.  A
fail-fast reporter turns the first error into a failure; a collecting one keeps them all.
-/

namespace Wiring

inductive Severity where
  | error
  | warning
deriving Repr, DecidableEq

inductive ProblemKind where
  | circularImport
  | finalConfigurationClass
  | nonOverridableBeanMethod
deriving Repr, DecidableEq

structure Problem where
  severity : Severity := .error
  kind : ProblemKind
  text : String
  /-- The resource of the offending class. -/
  resource : String
  className : Option String
deriving Repr, DecidableEq

def Problem.message (p : Problem) : String :=
  "Configuration problem: " ++ p.text ++ "\nOffending resource: " ++ p.resource

inductive Reporter where
  | failFast
  | collecting (problems : List Problem)
deriving Repr, DecidableEq

namespace Reporter

/-- Reports an error.  The problem comes back if it ends the run. -/
def error (r : Reporter) (p : Problem) : Reporter × Option Problem :=
  match r with
  | failFast => (failFast, some p)
  | collecting ps => (collecting (ps ++ [p]), none)

/-- Reports a warning, which never ends the run. -/
def warning (r : Reporter) (p : Problem) : Reporter :=
  match r with
  | failFast => failFast
  | collecting ps => collecting (ps ++ [p])

def problems : Reporter → List Problem
  | failFast => []
  | collecting ps => ps

/-- The problems collected so far, which are not kept. -/
def take (r : Reporter) : Reporter × List Problem :=
  match r with
  | failFast => (failFast, [])
  | collecting ps => (collecting [], ps)

end Reporter
end Wiring
