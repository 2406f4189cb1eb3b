import ObjectRegistry.Machine
import ObjectRegistry.Settings
import ObjectRegistry.Trial.Aliases

namespace ObjectRegistry.Trial.Teardown

/-- Names are given by number and wrap around. -/
inductive Move where
  | register (n : Nat)
  | depend (needed dependent : Nat)
  | contain (container contained : Nat)
  | link (name aka : Nat)
  | destroy (n : Nat)
  | destroyAll

def names : List Name := ["n0", "n1", "n2", "n3", "n4", "n5", "n6", "n7"]

def name (i : Nat) : Name := names.getD (i % names.length) ""

def limit : Nat := 100

def Move.describe : Move → String
  | register n => "Register(" ++ toString n ++ ")"
  | depend needed dependent =>
    Text.record "Depend" [("on", toString needed), ("dependent", toString dependent)]
  | contain container contained =>
    Text.record "Contain"
      [("container", toString container), ("contained", toString contained)]
  | link name aka => Text.record "Alias" [("name", toString name), ("alias", toString aka)]
  | destroy n => "Destroy(" ++ toString n ++ ")"
  | destroyAll => "DestroyAll"

def describe (moves : List Move) : String := Text.listing (moves.map Move.describe)

/-- A destroy callback is known by its name and by how many were accepted before it. -/
structure Callback where
  name : Name
  generation : Nat

structure Memory where
  made : Nat := 0
  accepted : Nat := 0
  ran : List Callback := []
  events : List Event := []

abbrev Script := Program Memory (Request Callback)

def client : Client Memory (Request Callback) Callback where
  factory _ := return .error (.raised "not a factory")
  early _ := .panic ⟨some "not a factory"⟩
  disposer callback := do
    Program.modify fun m => { m with ran := callback :: m.ran }
    return .ok ()
  hear event m := { m with events := event :: m.events }

def fail (text : String) : Script Unit := .panic ⟨some text⟩

def expectEqual (left right : Nat) : Script Unit :=
  unless left = right do
    fail (Aliases.mismatch "==" "" (toString left) (toString right))

def Move.make : Move → Script Unit
  | register n => do
    let id ← Program.takeThen (·.made) fun m => { m with made := m.made + 1 }
    match ← Program.ask (.install (name n) ⟨id, .str (name n)⟩) with
    | .settled (.ok ()) =>
      let generation := (← Program.get).accepted
      match ← Program.ask (.onDestroy (name n) ⟨name n, generation⟩) with
      | .settled (.ok ()) => Program.modify fun m => { m with accepted := m.accepted + 1 }
      | _ => return ()
    | _ => return ()
  | depend needed dependent => do
    let _ ← Program.ask (.addDependency (name needed) (name dependent))
  | contain container contained => do
    let _ ← Program.ask (.addContainment (name container) (name contained))
  | link n a => do
    let _ ← Program.ask (.link (name n) (name a))
  | destroy n => do
    unless (← Program.ask (.destroy (name n))).toReport.isClean do
      fail "assertion failed: report.is_clean()"
  | destroyAll => do
    unless (← Program.ask .destroyAll).toReport.isClean do
      fail "assertion failed: registry.destroy_all().is_clean()"
    expectEqual (← Program.ask .size).toCount 0

/-- Fails at the first callback, in the order in which they ran, that ran before. -/
def checkOnce (seen : List Nat) : List Callback → Script Unit
  | [] => return ()
  | callback :: rest => do
    if callback.generation ∈ seen then fail (callback.name ++ " destroyed twice")
    checkOnce (callback.generation :: seen) rest

def main (moves : List Move) : Script Unit := do
  for move in moves.take limit do
    move.make
  let _ ← Program.ask (.destroyAll)
  let m ← Program.get
  checkOnce [] m.ran.reverse
  expectEqual m.ran.length m.accepted

def run (moves : List Move) : List Event × Option String :=
  let settings : Settings := {}
  let m := Machine.run client 1000000
    (.ofMain settings.registry (Machine.remember client settings.events {}) (main moves))
  (m.memory.events.reverse,
    match m.activity with
    | .code _ (.panic p) => some p.text
    | _ => none)

end ObjectRegistry.Trial.Teardown
