import ObjectRegistry.Answer
import ObjectRegistry.Event

namespace ObjectRegistry

/-- Finished objects, early objects shown before their construction has ended, and the deferred
callbacks that make an early object on first demand. -/
structure Store (κ : Type) where
  finished : NameMap Handle := ∅
  early : NameMap Handle := ∅
  pending : NameMap κ := ∅
  /-- The names filed as finished or deferred, oldest first. -/
  filed : List Name := []
  closed : Bool := false

namespace Store

variable {κ : Type}

/-- Adds a name to the filing order, where it keeps the place it has. -/
def file (s : Store κ) (n : Name) : Store κ :=
  { s with filed := if n ∈ s.filed then s.filed else s.filed ++ [n] }

def finish (s : Store κ) (n : Name) (h : Handle) : Store κ :=
  { s with
    finished := s.finished.insert n h
    early := s.early.erase n
    pending := s.pending.erase n }.file n

/-- Files an object made elsewhere. Only the object that is there already may come again. -/
def install (s : Store κ) (n : Name) (h : Handle) : Except Fault (Store κ) :=
  if n = "" then .error .emptyName
  else
    match s.finished[n]? with
    | none => .ok (s.finish n h)
    | some existing => if existing.same h then .ok s else .error (.nameTaken n)

def defer (s : Store κ) (n : Name) (callback : κ) : Store κ :=
  { s with pending := s.pending.insert n callback, early := s.early.erase n }.file n

def takePending (s : Store κ) (n : Name) : Store κ :=
  { s with pending := s.pending.erase n }

def expose (s : Store κ) (n : Name) (h : Handle) : Store κ :=
  { s with early := s.early.insert n h }

def drop (s : Store κ) (n : Name) : Store κ :=
  { s with
    finished := s.finished.erase n
    early := s.early.erase n
    pending := s.pending.erase n
    filed := s.filed.erase n }

def discard (s : Store κ) (n : Name) : Store κ :=
  { s with
    early := s.early.erase n
    pending := s.pending.erase n
    filed := if s.finished.contains n then s.filed else s.filed.erase n }

def clear (s : Store κ) : Store κ := { closed := s.closed }

def close (s : Store κ) : Store κ := { s with closed := true }

def names (s : Store κ) : List Name := s.filed.filter s.finished.contains

def holds (s : Store κ) (n : Name) : Bool := s.finished.contains n

def size (s : Store κ) : Nat := s.finished.size

inductive Op where
  | install (n : Name) (h : Handle)
  | drop (n : Name)
  | holds (n : Name)
  | size
  | names
  | close
  | isClosed
  | clear

namespace Op

def answer (s : Store κ) : Op → Answer
  | install n h => .settled ((s.install n h).map fun _ => ())
  | drop n => .flag (s.holds n)
  | holds n => .flag (s.holds n)
  | size => .count s.size
  | names => .names s.names
  | isClosed => .flag s.closed
  | close | clear => .done

def update (s : Store κ) : Op → Store κ
  | install n h => (s.install n h).toOption.getD s
  | drop n => s.drop n
  | close => s.close
  | clear => s.clear
  | _ => s

def events (s : Store κ) : Op → List Event
  | install n h =>
    if n ≠ "" ∧ s.finished[n]?.isNone then [.finishedRegistered n (s.finish n h).size] else []
  | _ => []

end Op

end Store

end ObjectRegistry
