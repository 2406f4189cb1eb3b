import ObjectRegistry.Registry

namespace ObjectRegistry

structure Settings where
  overriding : Bool := true
  capacity : Nat := 256
  deriving DecidableEq

namespace Settings

def defaultCapacity : Nat := ({} : Settings).capacity

def describe (s : Settings) : String :=
  Text.record "RegistryConfig"
    [("allow_alias_overriding", Text.flag s.overriding), ("capacity", toString s.capacity)]

/-- An empty registry under these settings. The expected number of objects leaves no trace. -/
def registry {κ : Type} (s : Settings) : Registry κ where
  links := { overriding := s.overriding }

def events (s : Settings) : List Event := [.created s.capacity s.overriding]

end Settings

end ObjectRegistry
