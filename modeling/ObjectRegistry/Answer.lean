import ObjectRegistry.Fault
import ObjectRegistry.Handle

namespace ObjectRegistry

/-- What a callback that gave up without returning left behind; not every payload is text. -/
structure Panic where
  payload : Option String

def Panic.text (p : Panic) : String := p.payload.getD "unknown panic"

structure Report where
  /-- The names torn down, in the order in which their own step ran. -/
  destroyed : List Name := []
  failures : List (Name × Fault) := []

namespace Report

def isClean (r : Report) : Bool := r.failures.isEmpty

def settle (r : Report) (name : Name) (claimed : Bool) (outcome : Except Fault Unit) : Report where
  destroyed := if claimed then r.destroyed ++ [name] else r.destroyed
  failures :=
    match outcome with
    | .ok () => r.failures
    | .error f => r.failures ++ [(name, f)]

end Report

inductive Answer where
  | done
  | object (found : Option Handle)
  | made (outcome : Except Fault Handle)
  | settled (outcome : Except Fault Unit)
  | flag (value : Bool)
  | count (value : Nat)
  | text (value : String)
  | names (value : List Name)
  | faults (value : List Fault)
  | report (value : Report)
  | panicked (p : Panic)

def Answer.isFailure : Answer → Bool
  | .made (.error _) | .settled (.error _) | .panicked _ => true
  | _ => false

namespace Answer

def toObject? : Answer → Option Handle
  | object found => found
  | made outcome => outcome.toOption
  | _ => none

def toNames : Answer → List Name
  | names value => value
  | _ => []

def toCount : Answer → Nat
  | count value => value
  | _ => 0

def toReport : Answer → Report
  | report value => value
  | _ => {}

end Answer

end ObjectRegistry
