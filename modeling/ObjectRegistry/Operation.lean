import ObjectRegistry.Teardown

namespace ObjectRegistry

inductive Op (κ : Type) where
  | links (op : Links.Op)
  | marks (op : Marks.Op)
  | store (op : Store.Op)
  | edges (op : Edges.Op)
  | find (n : Name)
  | findAs (given n : Name) (kind : Kind)
  | obtain (n : Name) (factory : κ)
  | defer (n : Name) (early : κ)
  | onDestroy (n : Name) (callback : κ)
  | hasDisposer (n : Name)
  | disposerNames
  | destroy (n : Name)
  | destroyAll
  | describe (part : Registry.Part)

inductive Purpose where
  | find
  | findAs (given : Name) (kind : Kind)
  | obtain

namespace Purpose

def answer (h : Handle) : Purpose → Answer
  | find => .object (some h)
  | findAs _ kind => .object (h.downcast? kind)
  | obtain => .made (.ok h)

def events (n : Name) (h : Handle) : Purpose → List Event
  | find => []
  | findAs given kind => if h.kind = kind then [] else [.otherType given kind]
  | obtain => [.earlyFound n]

end Purpose

/-- What an operation comes to by itself: its answer, or else the callback or the teardown that its
answer waits for. -/
inductive Outset (κ : Type) where
  | reply (answer : Answer) (registry : Registry κ) (events : List Event)
  /-- The factory of `n` has to run. The construction owns the window that it opened. -/
  | construct (n : Name) (ownsWindow : Bool) (factory : κ) (registry : Registry κ)
  | expose (n : Name) (purpose : Purpose) (early : κ) (registry : Registry κ)
  | tearDown (walk : Walk κ) (registry : Registry κ) (events : List Event)

namespace Registry

variable {κ : Type}

def findEarly (r : Registry κ) (n : Name) (purpose : Purpose) : Option (Outset κ) :=
  if r.marks.isUnderway n then
    match r.store.early[n]? with
    | some h => some (.reply (purpose.answer h) r (purpose.events n h))
    | none =>
      (r.store.pending[n]?).map fun early =>
        .expose n purpose early { r with store := r.store.takePending n }
  else none

def find (r : Registry κ) (n : Name) (purpose : Purpose) : Outset κ :=
  match r.store.finished[n]? with
  | some h => .reply (purpose.answer h) r (purpose.events n h)
  | none => (r.findEarly n purpose).getD (.reply (.object none) r [])

/-- Begins the construction of `n`, and collects faults for it unless they are collected
already. -/
def construct (r : Registry κ) (n : Name) (factory : κ) : Outset κ :=
  match r.marks.enter n with
  | .error fault => .reply (.made (.error fault)) r []
  | .ok marks => .construct n marks.window.isNone factory { r with marks := marks.openWindow }

def obtain (r : Registry κ) (n : Name) (factory : κ) : Outset κ :=
  if n = "" then .reply (.made (.error .emptyName)) r []
  else
    match r.store.finished[n]? with
    | some h => .reply (.made (.ok h)) r [.finishedFound n]
    | none =>
      if r.store.closed then .reply (.made (.error (.shutDown n))) r []
      else (r.findEarly n .obtain).getD (r.construct n factory)

def defer (r : Registry κ) (n : Name) (early : κ) : Outset κ :=
  if n = "" then .reply (.settled (.error .emptyName)) r []
  else if r.store.holds n then .reply (.settled (.ok ())) r []
  else if r.marks.isUnderway n then
    .reply (.settled (.ok ())) { r with store := r.store.defer n early } [.earlyDeferred n]
  else .reply (.settled (.error (.notInCreation n))) r []

def onDestroy (r : Registry κ) (n : Name) (callback : κ) : Outset κ :=
  match r.disposers.add n callback with
  | .ok disposers => .reply (.settled (.ok ())) { r with disposers } []
  | .error fault => .reply (.settled (.error fault)) r []

def destroyAll (r : Registry κ) : Outset κ :=
  .tearDown (.all r.disposers) { r with store := r.store.close } [.teardownStarted r.store.size]

def start (r : Registry κ) : Op κ → Outset κ
  | .links op =>
    .reply (op.answer r.links) { r with links := op.update r.links } (op.events r.links)
  | .marks op => .reply (op.answer r.marks) { r with marks := op.update r.marks } []
  | .store op =>
    .reply (op.answer r.store) { r with store := op.update r.store } (op.events r.store)
  | .edges op =>
    .reply (op.answer r.links r.edges) { r with edges := op.update r.links r.edges }
      (op.events r.links r.edges)
  | .find n => r.find n .find
  | .findAs given n kind => r.find n (.findAs given kind)
  | .obtain n factory => r.obtain n factory
  | .defer n early => r.defer n early
  | .onDestroy n callback => r.onDestroy n callback
  | .hasDisposer n => .reply (.flag (r.disposers.has n)) r []
  | .disposerNames => .reply (.names r.disposers.names) r []
  | .destroy n => .tearDown (.one n) r []
  | .destroyAll => r.destroyAll
  | .describe part => .reply (.text (r.describe part)) r []

def suppressed (r : Registry κ) (ownsWindow : Bool) : List Fault :=
  if ownsWindow then r.marks.window.getD [] else []

def release (r : Registry κ) (n : Name) (ownsWindow : Bool) : Registry κ :=
  { r with marks := (if ownsWindow then r.marks.closeWindow else r.marks).leave n }

def abandon (r : Registry κ) (n : Name) (ownsWindow : Bool) : Registry κ :=
  { r with store := r.store.discard n }.release n ownsWindow

def complete (r : Registry κ) (n : Name) (ownsWindow : Bool) :
    Except Fault Handle → Answer × Registry κ × List Event
  | .ok h => (.made (.ok h), { r with store := r.store.finish n h }.release n ownsWindow, [])
  | .error fault =>
    let suppressed := r.suppressed ownsWindow
    (.made (.error (.creationFailed n fault suppressed)), r.abandon n ownsWindow,
      [.earlyDiscarded n, .creationFailed n fault suppressed.length])

def expose (r : Registry κ) (n : Name) (h : Handle) : Registry κ :=
  { r with store := r.store.expose n h }

end Registry

end ObjectRegistry
