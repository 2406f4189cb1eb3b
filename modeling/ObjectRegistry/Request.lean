import ObjectRegistry.Operation

namespace ObjectRegistry

inductive Request (κ : Type) where
  | find (n : Name)
  | findAs (n : Name) (kind : Kind)
  | obtain (n : Name) (factory : κ)
  | install (n : Name) (h : Handle)
  | defer (n : Name) (early : κ)
  | drop (n : Name)
  | holds (n : Name)
  | size
  | names
  | note (fault : Fault)
  | track (n : Name) (tracked : Bool)
  | isUnderway (n : Name)
  | link (name aka : Name)
  | unlink (aka : Name)
  | canonical (n : Name)
  | aliasesOf (n : Name)
  | isAlias (n : Name)
  | addDependency (n dependent : Name)
  | addContainment (owner part : Name)
  | dependentsOf (n : Name)
  | dependenciesOf (n : Name)
  | isTransitivelyDependent (target candidate : Name)
  | onDestroy (n : Name) (callback : κ)
  | destroy (n : Name)
  | destroyAll
  | isClosed
  | describe

/-- The operation that a request comes to while `links` are in force. -/
def Request.resolve {κ : Type} (links : Links) : Request κ → Op κ
  | find n => .find (links.canonical n)
  | findAs n kind => .findAs n (links.canonical n) kind
  | obtain n factory => .obtain (links.canonical n) factory
  | install n h => .store (.install (links.canonical n) h)
  | defer n early => .defer (links.canonical n) early
  | drop n => .store (.drop (links.canonical n))
  | holds n => .store (.holds (links.canonical n))
  | size => .store .size
  | names => .store .names
  | note fault => .marks (.note fault)
  | track n tracked => .marks (.track (links.canonical n) tracked)
  | isUnderway n => .marks (.isUnderway (links.canonical n))
  | link name aka => .links (.link name aka)
  | unlink aka => .links (.unlink aka)
  | canonical n => .links (.canonical n)
  | aliasesOf n => .links (.aliasesOf n)
  | isAlias n => .links (.isAlias n)
  | addDependency n dependent => .edges (.addDependency n (links.canonical dependent))
  | addContainment owner part =>
    .edges (.addContainment (links.canonical owner) (links.canonical part))
  | dependentsOf n => .edges (.dependentsOf (links.canonical n))
  | dependenciesOf n => .edges (.dependenciesOf (links.canonical n))
  | isTransitivelyDependent target candidate =>
    .edges (.isTransitivelyDependent target (links.canonical candidate))
  | onDestroy n callback => .onDestroy (links.canonical n) callback
  | destroy n => .destroy (links.canonical n)
  | destroyAll => .destroyAll
  | isClosed => .store .isClosed
  | describe => .describe .whole

/-- Languages in which a client may speak to a registry. -/
class Language (ρ : Type) (κ : outParam Type) where
  meaning : Links → ρ → Op κ

instance {κ : Type} : Language (Op κ) κ where
  meaning _ op := op

instance {κ : Type} : Language (Request κ) κ where
  meaning := Request.resolve

instance {κ : Type} : Language (Request κ ⊕ Op κ) κ where
  meaning
    | links, .inl request => request.resolve links
    | _, .inr op => op

end ObjectRegistry
