import ObjectRegistry.Event
import ObjectRegistry.Reach

namespace ObjectRegistry

structure Links where
  target : NameMap Name := ∅
  overriding : Bool := true

namespace Links

def isAlias (l : Links) (n : Name) : Bool := l.target.contains n

def chainEnd? (l : Links) (bound : Nat) (n : Name) : Option Name :=
  match l.target[n]? with
  | none => some n
  | some m =>
    match bound with
    | 0 => none
    | bound + 1 => l.chainEnd? bound m

/-- The name that `n` stands for in the end. A chain that has more links than there are aliases
runs in a circle and has no end; a name on it stands for itself. -/
def canonical (l : Links) (n : Name) : Name := (l.chainEnd? l.target.size n).getD n

def sources (links : List (Name × Name)) (n : Name) : List Name :=
  links.filterMap fun (aka, name) => if name = n then some aka else none

def leadingTo (l : Links) (n : Name) : List Name :=
  let links := l.target.toList
  gather (sources links) (links.map (·.1)) (sources links n)

def hasAlias (l : Links) (n aka : Name) : Bool := aka ∈ l.leadingTo n

def aliasesOf (l : Links) (n : Name) : List Name :=
  let found := l.leadingTo n
  l.target.keys.filter (· ∈ found)

def insert (l : Links) (name aka : Name) : Links :=
  { l with target := l.target.insert aka name }

def erase (l : Links) (aka : Name) : Links :=
  { l with target := l.target.erase aka }

def insert? (l : Links) (name aka : Name) : Except Fault Links :=
  if l.hasAlias aka name then .error (.circularAlias aka name)
  else .ok (l.insert name aka)

/-- Lets `aka` stand for `name`. A name given as its own alias stops being an alias. -/
def link (l : Links) (name aka : Name) : Except Fault Links :=
  if name = "" ∨ aka = "" then .error .emptyName
  else if aka = name then .ok (l.erase aka)
  else
    match l.target[aka]? with
    | none => l.insert? name aka
    | some registered =>
      if registered = name then .ok l
      else if l.overriding then l.insert? name aka
      else .error (.aliasTaken aka name registered)

def unlink (l : Links) (aka : Name) : Except Fault Links :=
  if l.isAlias aka then .ok (l.erase aka) else .error (.noSuchAlias aka)

/-- An alias that is about to move is announced before the search for a circle. -/
def linkEvents (l : Links) (name aka : Name) : List Event :=
  if name = "" ∨ aka = "" then []
  else if aka = name then [.selfAliasIgnored aka]
  else
    let added :=
      if l.hasAlias aka name then [] else [Event.aliasRegistered aka name]
    match l.target[aka]? with
    | none => added
    | some registered =>
      if registered = name then []
      else if l.overriding then .aliasOverridden aka registered name :: added
      else []

def describe (l : Links) : String :=
  Text.record "AliasIndex"
    [("count", toString l.target.size), ("allow_overriding", Text.flag l.overriding)]

end Links

end ObjectRegistry
