import Wiring.Text
import Wiring.Text.Alphanumeric
import Wiring.Text.Digit

/-!
# Log filters

A filter is a list of directives: a level for a target, or a level for all targets.  The more
specific a directive, the earlier it comes: longer targets first, the bare level last.
-/

namespace Wiring

inductive LogLevel where
  | off
  | error
  | warn
  | info
  | debug
  | trace
deriving Repr, DecidableEq

namespace LogLevel

def all : List LogLevel := [off, error, warn, info, debug, trace]

def name : LogLevel → String
  | off => "off"
  | error => "error"
  | warn => "warn"
  | info => "info"
  | debug => "debug"
  | trace => "trace"

/-- The level of that name, in any letter case, or of that number, which may have a plus. -/
def ofName? (s : String) : Option LogLevel :=
  match Text.number? 10 ((Text.after? "+" s).getD s).toList with
  | some n => all[n]?
  | none => all.find? (·.name == Text.asciiLower s)

end LogLevel

structure LogDirective where
  target : Option String
  level : LogLevel
deriving Repr, DecidableEq

namespace LogDirective

/-- A directive may start like this. -/
def isStart (c : Char) : Bool := Text.isAlphanumeric c || c = '-' || c = ':' || c = '_'

/-- `level`, `target` or `target=level`.  A target alone is logged in full.  Blanks belong to
the target or the level they stand by, except that there are none before `target=level`. -/
def parse? (s : List Char) : Option LogDirective :=
  if !(Text.trimLeft s).head?.any isStart then none
  else
    match Text.cutList '=' s with
    | none =>
      match LogLevel.ofName? (String.ofList s) with
      | some level => some ⟨none, level⟩
      | none => some ⟨some (String.ofList s), .trace⟩
    | some (target, level) =>
      if target.head?.any Text.isBlank then none
      else if level.isEmpty then some ⟨some (String.ofList target), .trace⟩
      else (LogLevel.ofName? (String.ofList level)).map (⟨some (String.ofList target), ·⟩)

def render (d : LogDirective) : String :=
  match d.target with
  | some t => t ++ "=" ++ d.level.name
  | none => d.level.name

/-- `a` is more specific than `b`. -/
def precedes (a b : LogDirective) : Bool :=
  match a.target, b.target with
  | some s, some t =>
    s.utf8ByteSize > t.utf8ByteSize || (s.utf8ByteSize = t.utf8ByteSize && t < s)
  | some _, none => true
  | none, _ => false

end LogDirective

/-- Directives for distinct targets, the more specific first. -/
structure LogFilter where
  directives : List LogDirective

namespace LogFilter

/-- Puts a directive in its place.  It replaces one for the same target. -/
def insert (d : LogDirective) : List LogDirective → List LogDirective
  | [] => [d]
  | e :: es =>
    if d.target = e.target then d :: es
    else if d.precedes e then d :: e :: es
    else e :: insert d es

/-- The filter of directives separated by commas.  Empty directives do not count; where there
are no others, errors pass. -/
def parse? (text : String) : Option LogFilter := do
  let ds ← ((Text.pieces (· = ',') text.toList).filter (!·.isEmpty)).mapM LogDirective.parse?
  let ds := if ds.isEmpty then [⟨none, .error⟩] else ds
  return ⟨ds.foldl (fun es d => insert d es) []⟩

def render (f : LogFilter) : String := String.intercalate "," (f.directives.map (·.render))

/-- The filter that lets pass what is at least information. -/
def standard : LogFilter := ⟨[⟨none, .info⟩]⟩

/-- The directives that a level setting means: a level by one of its names, or directives as
they are. -/
def directivesOf (setting : String) : String :=
  let s := Text.trim setting
  let lower := Text.asciiLower s
  if s.isEmpty then "info"
  else if lower = "warning" then "warn"
  else if ["trace", "debug", "info", "warn", "error"].contains lower then lower
  else s

/-- The filter of a level setting. -/
def ofSetting? (setting : String) : Option LogFilter := parse? (directivesOf setting)

/-- The filter of a level setting with directives from outside on top.  What is malformed does
not count. -/
def effective (setting : String) (outside : Option String) : LogFilter :=
  let own := (ofSetting? setting).getD standard
  match (outside.map Text.trim).filter (· ≠ "") with
  | none => own
  | some directives =>
    match parse? (directivesOf setting ++ "," ++ directives), parse? directives with
    | some merged, _ => merged
    | none, some alone => alone
    | none, none => own

end LogFilter
end Wiring
