import ObjectRegistry.Answer

namespace ObjectRegistry

/-- A name that is exempt is neither marked nor taken for marked. -/
structure Marks where
  /-- The names whose construction has begun and not ended, latest first. -/
  underway : List Name := []
  exempt : List Name := []
  /-- The faults noted so far, while someone collects them. -/
  window : Option (List Fault) := none

namespace Marks

def enter (m : Marks) (n : Name) : Except Fault Marks :=
  if n ∈ m.exempt then .ok m
  else if n ∈ m.underway then .error (.circularCreation n)
  else .ok { m with underway := n :: m.underway }

def leave (m : Marks) (n : Name) : Marks :=
  if n ∈ m.exempt then m else { m with underway := m.underway.erase n }

def isMarked (m : Marks) (n : Name) : Bool := n ∈ m.underway

def isUnderway (m : Marks) (n : Name) : Bool := n ∉ m.exempt && m.isMarked n

def track (m : Marks) (n : Name) (tracked : Bool) : Marks :=
  { m with
    exempt :=
      if tracked then m.exempt.erase n
      else if n ∈ m.exempt then m.exempt
      else n :: m.exempt }

def openWindow (m : Marks) : Marks := { m with window := some (m.window.getD []) }

def closeWindow (m : Marks) : Marks := { m with window := none }

def note (m : Marks) (fault : Fault) : Marks :=
  { m with window := m.window.map (· ++ [fault]) }

def describe (m : Marks) : String :=
  Text.record "CreationTracker"
    [("in_creation", toString m.underway.length), ("exclusions", toString m.exempt.length)]

inductive Op where
  | enter (n : Name)
  | leave (n : Name)
  | isUnderway (n : Name)
  | isMarked (n : Name)
  | track (n : Name) (tracked : Bool)
  | openWindow
  | closeWindow
  | note (fault : Fault)
  | size
  | isEmpty
  | describe

namespace Op

def answer (m : Marks) : Op → Answer
  | enter n => .settled ((m.enter n).map fun _ => ())
  | isUnderway n => .flag (m.isUnderway n)
  | isMarked n => .flag (m.isMarked n)
  | openWindow => .flag m.window.isNone
  | closeWindow => .faults (m.window.getD [])
  | size => .count m.underway.length
  | isEmpty => .flag m.underway.isEmpty
  | describe => .text m.describe
  | leave _ | track .. | note _ => .done

def update (m : Marks) : Op → Marks
  | enter n => (m.enter n).toOption.getD m
  | leave n => m.leave n
  | track n tracked => m.track n tracked
  | openWindow => m.openWindow
  | closeWindow => m.closeWindow
  | note fault => m.note fault
  | _ => m

end Op

end Marks

end ObjectRegistry
