/-!
# Events

What happens to strategies during a run, in order.
-/

namespace Wiring

/-- Classes and strategies are given by name. -/
inductive Event where
  | created (type : String)
  | selected (selector importing : String)
  /-- A deferred selector is asked, which comes later than what imports it. -/
  | deferredSelected (selector importing : String)
  | registered (registrar importing : String)
  /-- A group is handed a deferred selector.  The default group has no type. -/
  | processed (group : Option String) (importing : String)
  | entriesTaken (group : Option String)
  | sourceLoaded (factory : String) (name encoding : Option String) (description : String)
      (isPresent : Bool)
  | asked (condition className : String)
deriving Repr, DecidableEq

/-- The line of a log that reports the event.  The default group keeps no log. -/
def Event.line? : Event → Option String
  | created type => "create " ++ type
  | selected selector importing => "select " ++ selector ++ " for " ++ importing
  | deferredSelected selector importing => "select " ++ selector ++ " for " ++ importing
  | registered registrar importing => "register " ++ registrar ++ " for " ++ importing
  | processed group importing => group.map fun type => "process " ++ type ++ " for " ++ importing
  | entriesTaken group => group.map ("entries " ++ ·)
  | sourceLoaded factory name encoding description isPresent =>
    "source " ++ factory ++ " name=" ++ name.getD "-" ++ " encoding=" ++ encoding.getD "-" ++
      " resource=" ++ description ++ " exists=" ++ (if isPresent then "true" else "false")
  | asked condition className => "match " ++ condition ++ " on " ++ className

end Wiring
