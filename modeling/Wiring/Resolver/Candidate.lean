import Wiring.Resolver.Basic

/-!
# Configuration candidates

A class that contributes configuration is a candidate.  It is full if its bean methods are
called through a proxy, and lite otherwise.
-/

namespace Wiring

inductive CandidateKind where
  | full
  | lite
deriving Repr, DecidableEq

structure Candidate where
  kind : CandidateKind
  order : Int
deriving Repr, DecidableEq

namespace Resolver

/-- The class carries a tag that makes a candidate, or has a bean method.  Interfaces never
are candidates. -/
def isCandidate (r : Resolver) (c : ClassInfo) : Bool :=
  !c.isInterface &&
    (WellKnown.candidateIndicators.any (r.isTagged c) ||
      !(c.taggedMethods WellKnown.bean).isEmpty)

/-- Bean methods are called through a proxy, which is what a configuration tag asks for
unless it says otherwise. -/
def isProxying (t : Tag) : Bool := t.bool? "proxyBeanMethods" != some false

/-- The metadata that a definition is judged by. -/
def definitionInfo? (r : Resolver) (d : Definition LoadedType) (className : String) :
    Option ClassInfo :=
  match d.metadata?, d.loadedType with
  | some c, _ => some c
  | none, some t => some t.info
  | none, none => (r.readStatic className).toOption

/-- What kind of candidate the class of a definition is, if it is one.  A bean made by a
factory method is none. -/
def candidate? (r : Resolver) (d : Definition LoadedType) : Option Candidate := do
  let className ← d.className
  guard d.factoryMethod.isNone
  let c ← r.definitionInfo? d className
  match r.findTag? c WellKnown.configuration with
  | some t => return ⟨if isProxying t then .full else .lite, c.order⟩
  | none => if r.isCandidate c then return ⟨.lite, c.order⟩ else none

end Resolver
end Wiring
