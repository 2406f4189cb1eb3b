import ObjectRegistry.Registry

/-!
Teardown. A name is entered once in a run: its objects are dropped, what depends on it is torn
down, then its own destroy callback runs, then what it contains is torn down, and last it is
forgotten in the graph. What remains to be done is a stack of tasks, so that depth costs nothing.
The callback itself is left to the caller, who returns with `Walk.settle`.
-/

namespace ObjectRegistry

inductive Task (κ : Type) where
  | start (name : Name)
  | enter (name : Name)
  | dispose (name : Name) (callback : Option κ) (claimed : Bool)
  | contained (name : Name)
  | forget (name : Name)
  | sweep

structure Walk (κ : Type) where
  tasks : List (Task κ) := []
  visited : List Name := []
  report : Report := {}

inductive Turn (κ : Type) where
  | over
  | moved (walk : Walk κ) (registry : Registry κ) (events : List Event)
  | ask (name : Name) (callback : κ) (claimed : Bool) (walk : Walk κ)

namespace Registry

variable {κ : Type}

def claim (r : Registry κ) (n : Name) : Registry κ :=
  { r with
    store := r.store.drop n
    disposers := r.disposers.erase n
    edges := r.edges.takeDependents n }

def forget (r : Registry κ) (n : Name) : Registry κ :=
  { r with edges := r.edges.forget n }

def sweep (r : Registry κ) : Registry κ :=
  { r with store := r.store.clear, edges := {}, disposers := {} }

end Registry

namespace Walk

variable {κ : Type}

def one (n : Name) : Walk κ := { tasks := [.enter n] }

/-- The teardown of everything: each name with a callback, the latest callback first. -/
def all (d : Disposers κ) : Walk κ :=
  { tasks := d.names.reverse.map .start ++ [.sweep] }

def settle (w : Walk κ) (name : Name) (claimed : Bool) (outcome : Except Fault Unit) : Walk κ :=
  { w with report := w.report.settle name claimed outcome }

def enter (w : Walk κ) (r : Registry κ) (n : Name) : Walk κ :=
  let callback := r.disposers.find? n
  let claimed := r.store.holds n || callback.isSome
  { w with
    visited := n :: w.visited
    tasks :=
      (r.edges.dependentsOf n).map .enter
        ++ .dispose n callback claimed :: .contained n :: .forget n :: w.tasks }

def turn (w : Walk κ) (r : Registry κ) : Turn κ :=
  match w.tasks with
  | [] => .over
  | task :: rest =>
    let w := { w with tasks := rest }
    match task with
    | .start n => .moved { w with visited := [], tasks := .enter n :: rest } r []
    | .enter n =>
      if n ∈ w.visited then .moved w r []
      else
        let dependents := r.edges.dependentsOf n
        .moved (w.enter r n) (r.claim n)
          (if dependents = [] then [] else [.dependentsFirst n dependents])
    | .dispose n none claimed => .moved (w.settle n claimed (.ok ())) r []
    | .dispose n (some callback) claimed => .ask n callback claimed w
    | .contained n =>
      .moved { w with tasks := (r.edges.containedIn n).map .enter ++ rest }
        { r with edges := r.edges.takeContained n } []
    | .forget n => .moved w (r.forget n) []
    | .sweep =>
      .moved w r.sweep [.teardownEnded w.report.destroyed.length w.report.failures.length]

end Walk

end ObjectRegistry
