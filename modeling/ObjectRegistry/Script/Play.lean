import ObjectRegistry.Machine
import ObjectRegistry.Script.Session

namespace ObjectRegistry.Script

inductive Stop where
  | fault (fault : Fault)
  | panic (panic : Panic)

abbrev Play := Program Session Call

def newObject (value : Value) : Play Handle :=
  Program.takeThen (fun s => ⟨s.nextId, value⟩) fun s => { s with nextId := s.nextId + 1 }

def ObjectSpec.make : ObjectSpec → Play Handle
  | bound key => do
    match (← Program.get).objects[key]? with
    | some h => return h
    | none => newObject .unit
  | fresh value => newObject value

mutual

def FaultSpec.make : FaultSpec → Play Fault
  | given fault => return fault
  | saved key =>
    Program.takeThen (fun s => s.faults[key]?.getD (.raised ("missing error " ++ key)))
      fun s => { s with faults := s.faults.erase key }
  | creationFailed name source suppressed => do
    let source ← source.make
    return .creationFailed name source (← FaultSpec.makeAll suppressed)
  | wrapped inner => return .wrapped (← inner.make)

def FaultSpec.makeAll : List FaultSpec → Play (List Fault)
  | [] => return []
  | f :: fs => do
    let fault ← f.make
    return fault :: (← FaultSpec.makeAll fs)

end

def conclude (label : String) (manner : Manner) (a : Answer) : Play (Except Stop Unit) := do
  Program.modify (·.recordStep label (.answer a) manner.brief)
  match a with
  | .made (.ok h) | .object (some h) =>
    if let some key := manner.bindAs then
      Program.modify fun s => { s with objects := s.objects.insert key h }
    return .ok ()
  | .made (.error fault) | .settled (.error fault) =>
    if manner.insist then return .error (.fault fault)
    if let some key := manner.saveAs then
      Program.modify fun s => { s with faults := s.faults.insert key fault }
    return .ok ()
  | .object none =>
    match manner.otherwise with
    | some text => return .error (.fault (.raised text))
    | none => return .ok ()
  | .panicked panic => if manner.insist then return .error (.panic panic) else return .ok ()
  | _ => return .ok ()

mutual

def Step.play : Step → Play (Except Stop Unit)
  | .mk label action manner => action.play label manner

def Action.play (label : String) (manner : Manner) : Action → Play (Except Stop Unit)
  | .ask call => do conclude label manner (← Program.ask call)
  | .install address n object => do
    let h ← object.make
    conclude label manner
      (← Program.ask <| match address with
        | .resolved => .inl (.install n h)
        | .asGiven => .inr (.store (.install n h)))
  | .note fault => do
    let fault ← fault.make
    conclude label manner (← Program.ask (.inr (.marks (.note fault))))
  | .spare op => do conclude label manner (← onSpare op)
  | .spareNote fault => do
    let fault ← fault.make
    conclude label manner (← onSpare (.note fault))
  | .make value => do
    let h ← newObject value
    conclude label manner (.object (some h))
  | .same left right => do
    let s ← Program.get
    conclude label manner <|
      match s.objects[left]?, s.objects[right]? with
      | some a, some b => .flag (a.same b)
      | _, _ => .done
  | .downcast key kind => do
    let s ← Program.get
    conclude label manner (.object (s.objects[key]?.bind (·.downcast? kind)))
  | .typeName kind => conclude label manner (.text kind.typeName)
  | .inspect fault => do
    let fault ← fault.make
    Program.modify (·.recordStep label (.inspected fault) manner.brief)
    return .ok ()
  | .laps laps => do
    let before ← Program.takeThen id Session.muffle
    let outcome ← playLaps laps
    let failures ← Program.takeThen (·.failures) (·.unmuffle before)
    Program.modify (·.recordStep label (.laps laps.length failures) manner.brief)
    return outcome
  | .spawn steps => do
    Program.modify fun s => { s with threads := s.threads ++ [steps] }
    conclude label manner .done
where
  onSpare (op : Marks.Op) : Play Answer :=
    Program.takeThen (fun s => op.answer s.spare) fun s => { s with spare := op.update s.spare }

def playSteps : List Step → Play (Except Stop Unit)
  | [] => return .ok ()
  | step :: rest => do
    match ← step.play with
    | .ok () => playSteps rest
    | .error stop => return .error stop

def playLaps : List (List Step) → Play (Except Stop Unit)
  | [] => return .ok ()
  | lap :: rest => do
    match ← playSteps lap with
    | .ok () => playLaps rest
    | .error stop => return .error stop

end

def Callee.name : Callee → Name
  | .mk name _ => name

/-- The routine of a callback. A key that is not defined stands for the empty routine. -/
def Callee.routine (routines : NameMap Routine) : Callee → Routine
  | .mk _ (.named key) => routines[key]?.getD {}
  | .mk _ (.given steps ending) => { steps, ending }

def runRoutine {α : Type} (role : CallbackRole) (routine : Routine) (name : Name)
    (finish : ObjectSpec → Play α) : Play (Except Stop α) := do
  Program.modify (·.record (.entered role name))
  match ← playSteps routine.steps with
  | .error stop => return .error stop
  | .ok () =>
    match routine.ending with
    | .panicking panic => return .error (.panic panic)
    | .failing fault => return .error (.fault (← fault.make))
    | .returning object => return .ok (← finish object)

def fallible {α : Type} : Except Stop α → Play (Except Fault α)
  | .ok result => return .ok result
  | .error (.fault fault) => return .error fault
  | .error (.panic panic) => .panic panic

/-- The client that a script is. An early callback has no way to fail, so it panics instead; a
destroy callback makes no object. -/
def client (routines : NameMap Routine) : Client Session Call Callee where
  factory c := do
    fallible (← runRoutine .factory (c.routine routines) c.name ObjectSpec.make)
  early c := do
    match ← runRoutine .early (c.routine routines) c.name ObjectSpec.make with
    | .ok h => return h
    | .error (.fault fault) => .panic ⟨some ("early factory failed: " ++ fault.message)⟩
    | .error (.panic panic) => .panic panic
  disposer c := do
    fallible (← runRoutine .dispose (c.routine routines) c.name fun _ => return ())
  hear := Session.hear

def playThreads : List (List Step) → Play Unit
  | [] => return ()
  | steps :: rest => do
    let before ← Program.takeThen id Session.beginThread
    let _ ← playSteps steps
    Program.modify (·.endThread before)
    playThreads rest

/-- Runs the steps of a script. A thread waits until the step that spawned it is over. -/
def playMain : List Step → Play Unit
  | [] => return ()
  | step :: rest => do
    let outcome ← step.play
    let threads ← Program.takeThen (·.threads) fun s => { s with threads := [] }
    playThreads threads
    match outcome with
    | .ok () => playMain rest
    | .error _ => return ()

end ObjectRegistry.Script

namespace ObjectRegistry.Script

/-- More steps than any script in use takes. -/
def patience : Nat := 1000000000

def log (script : Script) : List Entry :=
  let client := client script.routines
  let opening := if script.announced then script.settings.events else []
  let memory := Machine.remember client opening { listening := script.listening }
  (Machine.run client patience
    (.ofMain script.settings.registry memory (playMain script.steps))).memory.log.reverse

end ObjectRegistry.Script
