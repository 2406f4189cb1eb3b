import ObjectRegistry.Program
import ObjectRegistry.Request

/-!
A registry at work with its client. Callbacks are programs of the client that call the registry
again, to any depth, so calls that wait for a callback form a stack. One step is one move of the
running program or one task of a running teardown.
-/

namespace ObjectRegistry

inductive Duty (κ : Type) where
  | main
  | construct (n : Name) (ownsWindow : Bool)
  | expose (n : Name) (purpose : Purpose)
  /-- The program is the destroy callback of `n`, and `rest` is the teardown it interrupts. -/
  | dispose (n : Name) (claimed : Bool) (rest : Walk κ)

abbrev Duty.Result {κ : Type} : Duty κ → Type
  | .main => Unit
  | .construct .. => Except Fault Handle
  | .expose .. => Handle
  | .dispose .. => Except Fault Unit

/-- A client: the code behind its callbacks, and what an event does to its memory. -/
structure Client (σ ρ κ : Type) where
  factory : κ → Program σ ρ (Except Fault Handle)
  early : κ → Program σ ρ Handle
  disposer : κ → Program σ ρ (Except Fault Unit)
  hear : Event → σ → σ

inductive Activity (σ ρ κ : Type) where
  | code (duty : Duty κ) (program : Program σ ρ duty.Result)
  | tearDown (walk : Walk κ)

structure Caller (σ ρ κ : Type) where
  duty : Duty κ
  resume : Answer → Program σ ρ duty.Result

structure Machine (σ ρ κ : Type) where
  registry : Registry κ
  memory : σ
  activity : Activity σ ρ κ
  callers : List (Caller σ ρ κ)

namespace Machine

variable {σ ρ κ : Type}

def remember (client : Client σ ρ κ) (events : List Event) (memory : σ) : σ :=
  events.foldl (fun memory event => client.hear event memory) memory

def answer (client : Client σ ρ κ) (m : Machine σ ρ κ) (registry : Registry κ)
    (events : List Event) (a : Answer) : Option (Machine σ ρ κ) :=
  match m.callers with
  | [] => none
  | caller :: callers =>
    some
      { registry, callers
        memory := remember client events m.memory
        activity := .code caller.duty (caller.resume a) }

def begin (client : Client σ ρ κ) (m : Machine σ ρ κ) : Outset κ → Option (Machine σ ρ κ)
  | .reply a registry events => m.answer client registry events a
  | .construct n ownsWindow factory registry =>
    some
      { m with
        registry
        memory := remember client [.creationStarted n] m.memory
        activity := .code (.construct n ownsWindow) (client.factory factory) }
  | .expose n purpose early registry =>
    some { m with registry, activity := .code (.expose n purpose) (client.early early) }
  | .tearDown walk registry events =>
    some
      { m with
        registry
        memory := remember client events m.memory
        activity := .tearDown walk }

def finish (client : Client σ ρ κ) (m : Machine σ ρ κ) :
    (duty : Duty κ) → duty.Result → Option (Machine σ ρ κ)
  | .main, _ => none
  | .construct n ownsWindow, outcome =>
    let (a, registry, events) := m.registry.complete n ownsWindow outcome
    m.answer client registry events a
  | .expose n purpose, h =>
    m.answer client (m.registry.expose n h) (.earlyExposed n :: purpose.events n h)
      (purpose.answer h)
  | .dispose n claimed rest, outcome =>
    some
      { m with
        memory :=
          remember client
            (match outcome with
              | .ok () => []
              | .error fault => [.callbackFailed n fault]) m.memory
        activity := .tearDown (rest.settle n claimed outcome) }

/-- A program has panicked. A teardown takes that for a failure of the callback and goes on; any
other call passes the panic to its caller. -/
def unwind (client : Client σ ρ κ) (m : Machine σ ρ κ) (p : Panic) :
    Duty κ → Option (Machine σ ρ κ)
  | .main => none
  | .construct n ownsWindow =>
    m.answer client (m.registry.abandon n ownsWindow) [.earlyDiscarded n] (.panicked p)
  | .expose _ _ => m.answer client m.registry [] (.panicked p)
  | .dispose n claimed rest =>
    m.finish client (.dispose n claimed rest)
      (.error (.raised ("destroy callback panicked: " ++ p.text)))

/-- One step, or `none` at the end of the main program. -/
def step [Language ρ κ] (client : Client σ ρ κ) (m : Machine σ ρ κ) :
    Option (Machine σ ρ κ) :=
  match m.activity with
  | .code duty (.done result) => m.finish client duty result
  | .code duty (.panic p) => m.unwind client p duty
  | .code duty (.access change next) =>
    some { m with memory := change m.memory, activity := .code duty (next m.memory) }
  | .code duty (.call request next) =>
    { m with callers := ⟨duty, next⟩ :: m.callers }.begin client
      (m.registry.start (Language.meaning m.registry.links request))
  | .tearDown walk =>
    match walk.turn m.registry with
    | .over => m.answer client m.registry [] (.report walk.report)
    | .moved walk registry events =>
      some
        { m with
          registry
          memory := remember client events m.memory
          activity := .tearDown walk }
    | .ask n callback claimed rest =>
      some { m with activity := .code (.dispose n claimed rest) (client.disposer callback) }

def run [Language ρ κ] (client : Client σ ρ κ) : Nat → Machine σ ρ κ → Machine σ ρ κ
  | 0, m => m
  | bound + 1, m =>
    match m.step client with
    | none => m
    | some m => run client bound m

def ofMain (registry : Registry κ) (memory : σ) (main : Program σ ρ Unit) : Machine σ ρ κ where
  registry
  memory
  activity := .code .main main
  callers := []

end Machine

end ObjectRegistry
