import ObjectRegistry.Disposers
import ObjectRegistry.Edges
import ObjectRegistry.Links.Op
import ObjectRegistry.Marks
import ObjectRegistry.Store

namespace ObjectRegistry

/-- All that a registry knows. Callbacks are known by labels of type `κ`. -/
structure Registry (κ : Type) where
  links : Links := {}
  marks : Marks := {}
  store : Store κ := {}
  edges : Edges := {}
  disposers : Disposers κ := {}

namespace Registry

variable {κ : Type}

inductive Part where
  | whole
  | links
  | store
  | disposers

def describe (r : Registry κ) : Part → String
  | .whole =>
    Text.record "SingletonRegistry"
      [("finished", toString r.store.size), ("aliases", toString r.links.target.size),
       ("shutdown", Text.flag r.store.closed)]
  | .links => r.links.describe
  | .store =>
    Text.record "SingletonCache"
      [("finished", toString r.store.size), ("in_creation", toString r.marks.underway.length),
       ("shutdown", Text.flag r.store.closed)]
  | .disposers => r.disposers.describe

end Registry

end ObjectRegistry
