import ObjectRegistry.Links.Basic

namespace ObjectRegistry.Trial.Aliases

/-- Names are given by number and wrap around. -/
inductive Move where
  | register (name aka : Nat)
  | remove (aka : Nat)
  | canonical (name : Nat)

structure Scenario where
  overriding : Bool
  moves : List Move

def names : List Name := ["a", "b", "c", "d", "e", "f"]

def name (i : Nat) : Name := names.getD (i % names.length) ""

def limit : Nat := 200

def Move.describe : Move → String
  | register name aka =>
    Text.record "Register" [("name", toString name), ("alias", toString aka)]
  | remove aka => Text.record "Remove" [("alias", toString aka)]
  | canonical name => Text.record "Canonical" [("name", toString name)]

def Scenario.describe (s : Scenario) : String :=
  Text.record "AliasScenario"
    [("allow_overriding", Text.flag s.overriding),
     ("ops", Text.listing (s.moves.map Move.describe))]

def mismatch (relation note left right : String) : String :=
  "assertion `left " ++ relation ++ " right` failed" ++ note ++ "\n  left: " ++ left
    ++ "\n right: " ++ right

def expectEqual (note left right : String) : Except String Unit :=
  if left = right then .ok () else .error (mismatch "==" note left right)

def checkAlias (l : Links) (target aka : Name) : Except String Unit := do
  expectEqual "" (Text.quote (l.canonical aka)) (Text.quote (l.canonical target))
  if aka = target then
    .error
      (mismatch "!=" (": alias cycle through " ++ target) (Text.quote aka) (Text.quote target))

def check (l : Links) : Except String Unit :=
  names.forM fun target => (l.aliasesOf target).forM (checkAlias l target)

def Move.make (l : Links) : Move → Except String Links
  | register n a =>
    match l.link (name n) (name a) with
    | .ok l => .ok l
    | .error (.circularAlias ..) | .error (.aliasTaken ..) => .ok l
    | .error fault => .error ("unexpected error: " ++ fault.message)
  | remove a => do
    let removed := l.unlink (name a)
    expectEqual "" (Text.flag (l.isAlias (name a))) (Text.flag removed.toOption.isSome)
    .ok (removed.toOption.getD l)
  | canonical n =>
    if l.isAlias (l.canonical (name n)) then
      .error "assertion failed: !index.is_alias(&canonical)"
    else .ok l

def Move.events (l : Links) : Move → List Event
  | register n a => l.linkEvents (name n) (name a)
  | _ => []

/-- Makes the moves in turn. Collects what is told, and the text of a broken rule if there is
one. -/
def run : List Move → Links → List Event × Option String
  | [], _ => ([], none)
  | move :: rest, l =>
    match move.make l with
    | .error text => (move.events l, some text)
    | .ok after =>
      match check after with
      | .error text => (move.events l, some text)
      | .ok () =>
        let (events, broken) := run rest after
        (move.events l ++ events, broken)

def Scenario.run (s : Scenario) : List Event × Option String :=
  Aliases.run (s.moves.take limit) { overriding := s.overriding }

end ObjectRegistry.Trial.Aliases
