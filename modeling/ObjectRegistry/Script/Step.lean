import ObjectRegistry.Request
import ObjectRegistry.Settings

namespace ObjectRegistry.Script

inductive ObjectSpec where
  /-- The object a variable is bound to, or else a new unit object. -/
  | bound (key : String)
  | fresh (value : Value)

inductive FaultSpec where
  | given (fault : Fault)
  /-- The fault saved under a key, which is thereby used up. -/
  | saved (key : String)
  | creationFailed (name : Name) (source : FaultSpec) (suppressed : List FaultSpec)
  | wrapped (inner : FaultSpec)

inductive Ending where
  | returning (object : ObjectSpec)
  | failing (fault : FaultSpec)
  | panicking (panic : Panic)

structure Manner where
  bindAs : Option String := none
  saveAs : Option String := none
  insist : Bool := false
  otherwise : Option String := none
  brief : Bool := false

inductive Address where
  | resolved
  | asGiven

mutual

inductive Step where
  | mk (label : String) (action : Action) (manner : Manner)

inductive Action where
  | ask (call : Request Callee ⊕ Op Callee)
  | install (address : Address) (n : Name) (object : ObjectSpec)
  | note (fault : FaultSpec)
  /-- Speak to marks that belong to no registry. -/
  | spare (op : Marks.Op)
  | spareNote (fault : FaultSpec)
  | make (value : Value)
  | same (left right : String)
  | downcast (key : String) (kind : Kind)
  | typeName (kind : Kind)
  | inspect (fault : FaultSpec)
  /-- Run all laps one after the other, and log only how many results were failures. -/
  | laps (laps : List (List Step))
  /-- Leave the steps to a thread that has to wait until the registry is free. -/
  | spawn (steps : List Step)

inductive Callee where
  | mk (name : Name) (body : Body)

inductive Body where
  | named (key : String)
  | given (steps : List Step) (ending : Ending)

end

abbrev Call := Request Callee ⊕ Op Callee

structure Routine where
  steps : List Step := []
  ending : Ending := .returning (.fresh .unit)

end ObjectRegistry.Script

namespace ObjectRegistry

open Script in
structure Script where
  settings : Settings := {}
  announced : Bool := true
  listening : Bool := false
  routines : NameMap Routine := ∅
  steps : List Step

end ObjectRegistry
