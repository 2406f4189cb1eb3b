namespace ObjectRegistry

inductive Kind where
  | int
  | str
  | bool
  | unit
  deriving DecidableEq

def Kind.typeName : Kind → String
  | .int => "i64"
  | .str => "alloc::string::String"
  | .bool => "bool"
  | .unit => "()"

inductive Value where
  | int (value : Int)
  | str (value : String)
  | bool (value : Bool)
  | unit
  deriving DecidableEq

def Value.kind : Value → Kind
  | .int _ => .int
  | .str _ => .str
  | .bool _ => .bool
  | .unit => .unit

/-- A shared object. The registry never looks at the value, and two handles are the same object
when their numbers agree. -/
structure Handle where
  id : Nat
  value : Value
  deriving DecidableEq

namespace Handle

def kind (h : Handle) : Kind := h.value.kind

def same (a b : Handle) : Bool := a.id == b.id

def downcast? (h : Handle) (kind : Kind) : Option Handle :=
  if h.kind = kind then some h else none

end Handle

end ObjectRegistry
