import ObjectRegistry.Machine
import ObjectRegistry.Settings

namespace ObjectRegistry.Shop

inductive Callback where
  | openPool
  | buildOrders
  | showOrders
  | buildInventory
  | farewell (name : Name)

structure Memory where
  lines : List String := []
  events : List Event := []
  inventoryOrders : Option Handle := none

abbrev Script := Program Memory (Request Callback)

def pool : Handle := ⟨0, .str "postgres://localhost/shop"⟩

def orders : Handle := ⟨1, .str "orders"⟩

def inventory : Handle := ⟨2, .str "inventory"⟩

def print (line : String) : Script Unit :=
  Program.modify fun m => { m with lines := line :: m.lines }

def listed (names : List Name) : String := Text.listing (names.map Text.quote)

def buildInventory : Script (Except Fault Handle) := do
  match (← Program.ask (.find "orders")).toObject? with
  | none => return .error (.raised "orders not exposed")
  | some found =>
    let _ ← Program.ask (.addDependency "orders" "inventory")
    let _ ← Program.ask (.addDependency "pool" "inventory")
    Program.modify fun m => { m with inventoryOrders := some found }
    return .ok inventory

def buildOrders : Script (Except Fault Handle) := do
  match ← Program.ask (.defer "orders" .showOrders) with
  | .settled (.error fault) => return .error fault
  | _ =>
    match ← Program.ask (.obtain "inventory" .buildInventory) with
    | .made (.error fault) => return .error fault
    | .panicked p => .panic p
    | _ =>
      let _ ← Program.ask (.addDependency "inventory" "orders")
      let _ ← Program.ask (.addDependency "pool" "orders")
      return .ok orders

def client : Client Memory (Request Callback) Callback where
  factory
    | .openPool => do
      print "  [App] Opening connection pool..."
      return .ok pool
    | .buildOrders => buildOrders
    | .buildInventory => buildInventory
    | .showOrders | .farewell _ => return .error (.raised "not a factory")
  early _ := return orders
  disposer
    | .farewell name => do
      print ("  [App] Destroying " ++ name)
      return .ok ()
    | _ => return .ok ()
  hear event m := { m with events := event :: m.events }

/-- Whether the inventory holds the very object that the registry now has as the orders. -/
def sameOrders (held found : Option Handle) : Bool :=
  match held, found with
  | some a, some b => a.same b
  | _, _ => false

def main : Script Unit := do
  print "=== Singleton Registry Lifecycle Demo ===\n"
  let _ ← Program.require (.link "connectionPool" "pool")
  let _ ← Program.require (.obtain "pool" .openPool)
  let _ ← Program.require (.obtain "orders" .buildOrders)
  let _ ← Program.require (.findAs "inventory" .str)
  let found := (← Program.require (.find "orders")).toObject?
  let held := (← Program.get).inventoryOrders
  print ("  [App] inventory sees the finished orders object: "
    ++ Text.flag (sameOrders held found))
  let finished := (← Program.require .names).toNames
  print ("  [App] finished: " ++ listed finished)
  print ("  [App] depends on pool: " ++ listed (← Program.require (.dependentsOf "pool")).toNames)
  for name in finished do
    let _ ← Program.require (.onDestroy name (.farewell name))
  let report := (← Program.require (.destroy "pool")).toReport
  print ("\n  [App] destroyed in order: " ++ listed report.destroyed)
  let report := (← Program.require .destroyAll).toReport
  unless report.isClean do
    Program.panic ⟨some "assertion failed: report.is_clean()"⟩
  print ("  [App] remaining: " ++ toString (← Program.require .size).toCount)
  print "\n=== Demo Complete ==="

def day : Memory :=
  let settings : Settings := {}
  (Machine.run client 1000
    (.ofMain settings.registry (Machine.remember client settings.events {}) main)).memory

def transcript : String := String.join (day.lines.reverse.map (· ++ "\n"))

def events : List Event := day.events.reverse

end ObjectRegistry.Shop
