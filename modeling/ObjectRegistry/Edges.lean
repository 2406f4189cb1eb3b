import ObjectRegistry.Answer
import ObjectRegistry.Links.Basic

namespace ObjectRegistry

abbrev Adjacency := NameMap (List Name)

namespace Adjacency

def members (a : Adjacency) (n : Name) : List Name := a[n]?.getD []

def add (a : Adjacency) (n member : Name) : Adjacency :=
  if member ∈ members a n then a else a.insert n (members a n ++ [member])

def removeMember (a : Adjacency) (n member : Name) : Adjacency :=
  match (members a n).erase member with
  | [] => a.erase n
  | rest => a.insert n rest

def removeFrom (a : Adjacency) (keys : List Name) (member : Name) : Adjacency :=
  keys.foldl (fun a n => removeMember a n member) a

end Adjacency

/-- Who needs whom, and who owns whom. An owner is also a dependent of what it owns. Members of a
set stay in the order in which they came, and a set that runs empty is dropped with its key. -/
structure Edges where
  contained : Adjacency := ∅
  /-- The names that need each name. -/
  dependents : Adjacency := ∅
  dependencies : Adjacency := ∅

namespace Edges

open Adjacency

def containedIn (e : Edges) (owner : Name) : List Name := members e.contained owner

def dependentsOf (e : Edges) (n : Name) : List Name := members e.dependents n

def dependenciesOf (e : Edges) (n : Name) : List Name := members e.dependencies n

def depend (e : Edges) (n dependent : Name) : Edges :=
  if dependent ∈ e.dependentsOf n then e
  else
    { e with
      dependents := add e.dependents n dependent
      dependencies := add e.dependencies dependent n }

def addDependency (e : Edges) (links : Links) (n dependent : Name) : Edges :=
  e.depend (links.canonical n) dependent

/-- Records that `owner` contains `part`, so that it depends on what `part` stands for. -/
def addContainment (e : Edges) (links : Links) (owner part : Name) : Edges :=
  if part ∈ e.containedIn owner then e
  else { e with contained := add e.contained owner part }.addDependency links part owner

/-- Removes the set of dependents of `n`; the edges stay known from their other end. -/
def takeDependents (e : Edges) (n : Name) : Edges :=
  { e with dependents := e.dependents.erase n }

def takeContained (e : Edges) (n : Name) : Edges :=
  { e with contained := e.contained.erase n }

/-- Removes `n` everywhere. The sets that hold it are found from the other end of each edge, and
the owners of `n` among its dependents. -/
def forget (e : Edges) (n : Name) : Edges where
  contained := removeFrom (e.contained.erase n) (e.dependentsOf n) n
  dependents := removeFrom (e.dependents.erase n) (e.dependenciesOf n) n
  dependencies := removeFrom (e.dependencies.erase n) (e.dependentsOf n) n

/-- Whether a path of dependents leads from `target` to `candidate`. Each step starts at what the
dependent before it stands for. -/
def isTransitivelyDependent (e : Edges) (links : Links) (target candidate : Name) : Bool :=
  (gather (fun n => (e.dependentsOf n).map links.canonical) e.dependents.keys
    [links.canonical target]).any fun n => candidate ∈ e.dependentsOf n

def isEmpty (e : Edges) : Bool :=
  e.contained.isEmpty && e.dependents.isEmpty && e.dependencies.isEmpty

def describe (e : Edges) : String :=
  Text.record "DependencyGraph"
    [("containers", toString e.contained.size), ("depended_on", toString e.dependents.size),
     ("dependents", toString e.dependencies.size)]

inductive Op where
  | addDependency (n dependent : Name)
  | addContainment (owner part : Name)
  | dependentsOf (n : Name)
  | dependenciesOf (n : Name)
  | containedIn (owner : Name)
  | hasDependents (n : Name)
  | isTransitivelyDependent (target candidate : Name)
  | forget (n : Name)
  | clear
  | isEmpty
  | describe

namespace Op

def answer (links : Links) (e : Edges) : Op → Answer
  | dependentsOf n => .names (e.dependentsOf n)
  | dependenciesOf n => .names (e.dependenciesOf n)
  | containedIn owner => .names (e.containedIn owner)
  | hasDependents n => .flag !(e.dependentsOf n).isEmpty
  | isTransitivelyDependent target candidate =>
    .flag (e.isTransitivelyDependent links target candidate)
  | isEmpty => .flag e.isEmpty
  | describe => .text e.describe
  | addDependency .. | addContainment .. | forget _ | clear => .done

def update (links : Links) (e : Edges) : Op → Edges
  | addDependency n dependent => e.addDependency links n dependent
  | addContainment owner part => e.addContainment links owner part
  | forget n => e.forget n
  | clear => {}
  | _ => e

def events (links : Links) (e : Edges) : Op → List Event
  | addDependency n dependent => dependencyEvents links e n dependent
  | addContainment owner part =>
    if part ∈ e.containedIn owner then [] else dependencyEvents links e part owner
  | _ => []
where
  dependencyEvents (links : Links) (e : Edges) (n dependent : Name) : List Event :=
    if dependent ∈ e.dependentsOf (links.canonical n) then []
    else [.dependencyRegistered (links.canonical n) dependent]

end Op

end Edges

end ObjectRegistry
