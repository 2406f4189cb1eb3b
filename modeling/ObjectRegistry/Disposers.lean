import ObjectRegistry.Answer

namespace ObjectRegistry

/-- The destroy callbacks, at most one for a name, oldest first. -/
structure Disposers (κ : Type) where
  entries : List (Name × κ) := []

namespace Disposers

variable {κ : Type}

def find? (d : Disposers κ) (n : Name) : Option κ := d.entries.lookup n

def has (d : Disposers κ) (n : Name) : Bool := (d.find? n).isSome

def names (d : Disposers κ) : List Name := d.entries.map (·.1)

def add (d : Disposers κ) (n : Name) (callback : κ) : Except Fault (Disposers κ) :=
  if n = "" then .error .emptyName
  else if d.has n then .error (.callbackTaken n)
  else .ok ⟨d.entries ++ [(n, callback)]⟩

def erase (d : Disposers κ) (n : Name) : Disposers κ :=
  ⟨d.entries.filter (·.1 ≠ n)⟩

def describe (d : Disposers κ) : String :=
  Text.record "LifecycleManager" [("disposables", toString d.entries.length)]

end Disposers

end ObjectRegistry
