import ObjectRegistry.Name
import ObjectRegistry.Text.Quoted

namespace ObjectRegistry

/-- Why an operation was refused, or a callback gave up. A failed construction wraps the fault that
ended it, so faults form chains that end in a root cause. -/
inductive Fault where
  | emptyName
  | nameTaken (name : Name)
  | callbackTaken (name : Name)
  | circularCreation (name : Name)
  | creationFailed (name : Name) (source : Fault) (suppressed : List Fault)
  | shutDown (name : Name)
  | notInCreation (name : Name)
  | circularAlias (aka name : Name)
  | aliasTaken (aka name registered : Name)
  | noSuchAlias (aka : Name)
  | raised (text : String)
  | wrapped (inner : Fault)

namespace Fault

def message : Fault → String
  | emptyName => "Name must not be empty"
  | nameTaken name =>
    "Could not register object under name '" ++ name
      ++ "': there is already a different object bound"
  | callbackTaken name => "Destroy callback already registered for '" ++ name ++ "'"
  | circularCreation name =>
    "Requested object '" ++ name
      ++ "' is currently in creation: is there an unresolvable circular reference?"
  | creationFailed name source _ =>
    "Error creating object '" ++ name ++ "': " ++ source.message
  | shutDown name =>
    "Creation of '" ++ name
      ++ "' not allowed while singletons of this registry are in destruction"
  | notInCreation name => "Object '" ++ name ++ "' is not currently in creation"
  | circularAlias aka name =>
    "Cannot register alias '" ++ aka ++ "' for name '" ++ name ++ "': circular reference - '"
      ++ name ++ "' is a direct or indirect alias for '" ++ aka ++ "' already"
  | aliasTaken aka name registered =>
    "Cannot define alias '" ++ aka ++ "' for name '" ++ name
      ++ "': it is already registered for name '" ++ registered ++ "'"
  | noSuchAlias aka => "No alias '" ++ aka ++ "' registered"
  | raised text => text
  | wrapped inner => inner.message

/-- The fault that the innermost factory met. What a callback wrapped counts as its own. -/
def rootCause : Fault → Fault
  | creationFailed _ source _ => source.rootCause
  | f => f

/-- The messages of the faults behind this one, nearest first. A wrapped fault has the place of
the one around it. -/
def sources : Fault → List String
  | creationFailed _ source _ => source.message :: source.sources
  | wrapped inner => inner.sources
  | _ => []

def suppressed : Fault → List Fault
  | creationFailed _ _ suppressed => suppressed
  | _ => []

open Text in
mutual

def describe : Fault → String
  | emptyName => "EmptyName"
  | nameTaken name => record "AlreadyRegistered" [("name", quote name)]
  | callbackTaken name => record "DisposableAlreadyRegistered" [("name", quote name)]
  | circularCreation name => record "CyclicCreation" [("name", quote name)]
  | creationFailed name source suppressed =>
    record "CreationFailed"
      [("name", quote name), ("source", source.describe),
       ("suppressed", listing (describeAll suppressed))]
  | shutDown name => record "ShutdownInProgress" [("name", quote name)]
  | notInCreation name => record "NotInCreation" [("name", quote name)]
  | circularAlias aka name =>
    record "CircularAlias" [("alias", quote aka), ("name", quote name)]
  | aliasTaken aka name registered =>
    record "DuplicateAlias"
      [("alias", quote aka), ("name", quote name), ("registered", quote registered)]
  | noSuchAlias aka => record "NoSuchAlias" [("alias", quote aka)]
  | raised text => "Callback(" ++ quote text ++ ")"
  | wrapped inner => "Callback(" ++ inner.describe ++ ")"

def describeAll : List Fault → List String
  | [] => []
  | f :: fs => f.describe :: describeAll fs

end

end Fault

end ObjectRegistry
