/-!
# TOML documents

A document is a table.  How a table came about decides how it may still grow: tables made by
dotted keys grow by dotted keys, tables made on the way to a header may get a header of their
own, and inline tables are closed.
-/

namespace Wiring
namespace Toml

inductive TableForm where
  /-- Made on the way to the table of a header. -/
  | implied
  /-- Made by a dotted key. -/
  | dotted
  /-- Opened by its own header. -/
  | headed
  /-- Written in braces. -/
  | inline
deriving Repr, DecidableEq

inductive Value where
  | string (s : String)
  | int (i : Int)
  | float
  | bool (b : Bool)
  | datetime
  | array (values : List Value)
  | table (form : TableForm) (entries : List (String × Value))
  /-- The tables of array headers; the last one is open. -/
  | tables (last : List (String × Value)) (before : List (List (String × Value)))
deriving Inhabited, Repr

abbrev Entries := List (String × Value)

/-- Replaces the value of `key`. -/
def set (key : String) (v : Value) (es : Entries) : Entries :=
  es.map fun e => if e.1 = key then (key, v) else e

/-- Adds a pair under a dotted key.  A key is never given twice, and the table that takes the
pair is made by dotted keys only. -/
def addPair (key : String) (v : Value) : List String → Entries → Option Entries
  | [], es => if (es.lookup key).isSome then none else some (es ++ [(key, v)])
  | k :: path, es =>
    match es.lookup k with
    | none => do return es ++ [(k, .table .dotted (← addPair key v path []))]
    | some (.table .dotted inner) => do
      return set k (.table .dotted (← addPair key v path inner)) es
    | some (.table .implied inner) =>
      if path.isEmpty then none
      else do return set k (.table .implied (← addPair key v path inner)) es
    | some (.tables last before) =>
      if path.isEmpty then none
      else do return set k (.tables (← addPair key v path last) before) es
    | some _ => none

/-- Applies `f` to the entries of the table at a path of headers.  Tables missing on the way
are made. -/
def atPath (f : Entries → Option Entries) : List String → Entries → Option Entries
  | [], es => f es
  | k :: path, es =>
    match es.lookup k with
    | none => do return es ++ [(k, .table .implied (← atPath f path []))]
    | some (.table .inline _) => none
    | some (.table form inner) => do return set k (.table form (← atPath f path inner)) es
    | some (.tables last before) => do return set k (.tables (← atPath f path last) before) es
    | some _ => none

/-- Opens the table of a header.  It must be new, or made on the way to another header. -/
def openTable (key : String) (es : Entries) : Option Entries :=
  match es.lookup key with
  | none => some (es ++ [(key, .table .headed [])])
  | some (.table .implied inner) => some (set key (.table .headed inner) es)
  | some _ => none

/-- Opens one more table of an array header. -/
def openElement (key : String) (es : Entries) : Option Entries :=
  match es.lookup key with
  | none => some (es ++ [(key, .tables [] [])])
  | some (.tables last before) => some (set key (.tables [] (before ++ [last])) es)
  | some _ => none

end Toml
end Wiring
