import ObjectRegistry.Script.Step

namespace ObjectRegistry.Script

inductive Outcome where
  | answer (a : Answer)
  | laps (count failures : Nat)
  | inspected (fault : Fault)

inductive CallbackRole where
  | factory
  | early
  | dispose

inductive Entry where
  | step (label : String) (outcome : Outcome) (brief : Bool)
  | entered (role : CallbackRole) (name : Name)
  | event (event : Event)
  | thread (entries : List Entry)

structure Session where
  log : List Entry := []
  /-- How many repetitions are open; nothing is logged inside one. -/
  muffled : Nat := 0
  failures : Nat := 0
  listening : Bool := false
  nextId : Nat := 0
  objects : NameMap Handle := ∅
  faults : NameMap Fault := ∅
  spare : Marks := {}
  threads : List (List Step) := []

def Outcome.isFailure : Outcome → Bool
  | .answer a => a.isFailure
  | _ => false

namespace Session

def record (s : Session) (entry : Entry) : Session :=
  if s.muffled = 0 then { s with log := entry :: s.log } else s

def recordStep (s : Session) (label : String) (outcome : Outcome) (brief : Bool) : Session :=
  { s with failures := if outcome.isFailure then s.failures + 1 else s.failures }.record
    (.step label outcome brief)

def hear (event : Event) (s : Session) : Session :=
  if s.listening then s.record (.event event) else s

def muffle (s : Session) : Session := { s with muffled := s.muffled + 1, failures := 0 }

/-- Ends the repetition begun in the session `before`. Its failures are its own: a repetition
around it does not count them. -/
def unmuffle (s before : Session) : Session :=
  { s with muffled := before.muffled, failures := before.failures }

/-- A thread has a log of its own and hears nothing. -/
def beginThread (s : Session) : Session := { s with log := [], listening := false }

def endThread (s before : Session) : Session :=
  { s with log := .thread s.log.reverse :: before.log, listening := before.listening }

end Session

end ObjectRegistry.Script
