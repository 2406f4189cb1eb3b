import ObjectRegistry.Script.Session
import ObjectRegistry.Text.Document

namespace ObjectRegistry

open Text (Document)

def Kind.label : Kind → String
  | .int => "int"
  | .str => "str"
  | .bool => "bool"
  | .unit => "unit"

def Value.document : Value → Document
  | .int value => .number value
  | .str value => .text value
  | .bool value => .flag value
  | .unit => .null

def Handle.document (h : Handle) : Document :=
  .record
    [("id", .number h.id), ("type", .text h.kind.label), ("value", h.value.document)]

mutual

def Fault.document (f : Fault) : Document :=
  match f with
  | .emptyName => tagged "EmptyName" []
  | .nameTaken name => tagged "AlreadyRegistered" [("name", .text name)]
  | .callbackTaken name => tagged "DisposableAlreadyRegistered" [("name", .text name)]
  | .circularCreation name => tagged "CyclicCreation" [("name", .text name)]
  | .creationFailed name source suppressed =>
    tagged "CreationFailed"
      [("name", .text name), ("source", source.document),
       ("suppressed", .list (Fault.documents suppressed))]
  | .shutDown name => tagged "ShutdownInProgress" [("name", .text name)]
  | .notInCreation name => tagged "NotInCreation" [("name", .text name)]
  | .circularAlias aka name =>
    tagged "CircularAlias" [("alias", .text aka), ("name", .text name)]
  | .aliasTaken aka name registered =>
    tagged "DuplicateAlias"
      [("alias", .text aka), ("name", .text name), ("registered", .text registered)]
  | .noSuchAlias aka => tagged "NoSuchAlias" [("alias", .text aka)]
  | .raised _ | .wrapped _ => tagged "Callback" []
where
  tagged (kind : String) (fields : List (String × Document)) : Document :=
    .record (("kind", .text kind) :: ("text", .text f.message) :: fields)

def Fault.documents : List Fault → List Document
  | [] => []
  | f :: fs => f.document :: Fault.documents fs

end

def Report.document (r : Report) : Document :=
  .record
    [("destroyed", .names r.destroyed),
     ("failures", .ofList (fun (name, fault) => .list [.text name, fault.document]) r.failures),
     ("clean", .flag r.isClean)]

def Answer.document : Answer → Document
  | .done => .null
  | .object found => .ofOption Handle.document found
  | .made (.ok h) => .record [("ok", h.document)]
  | .settled (.ok ()) => .record [("ok", .null)]
  | .made (.error fault) | .settled (.error fault) => .record [("err", fault.document)]
  | .flag value => .flag value
  | .count value => .number value
  | .text value => .text value
  | .names value => .names value
  | .faults value => .ofList Fault.document value
  | .report value => value.document
  | .panicked panic => .record [("panic", .text panic.text)]

def Event.Field.document : Event.Field → Document
  | .text value => .text value
  | .number value => .number value
  | .flag value => .flag value

def Event.document (e : Event) : Document :=
  .record
    [("event", .text e.message), ("level", .text e.level.label),
     ("fields", .record (e.fields.map fun (name, field) => (name, field.document)))]

namespace Script

def Outcome.document : Outcome → Document
  | .answer a => a.document
  | .laps count failures => .record [("n", .number count), ("errors", .number failures)]
  | .inspected fault =>
    .record
      [("error", fault.document), ("debug", .text fault.describe),
       ("root", fault.rootCause.document), ("sources", .names fault.sources),
       ("suppressed", .ofList Fault.document fault.suppressed)]

def CallbackRole.label : CallbackRole → String
  | .factory => "factory"
  | .early => "early"
  | .dispose => "dispose"

mutual

def Entry.document : Entry → Document
  | .step label outcome brief =>
    .record
      [("s", .text label),
       ("r", if brief then outcome.document.brief else outcome.document)]
  | .entered role name => .record [("enter", .text role.label), ("name", .text name)]
  | .event e => e.document
  | .thread entries => .record [("thread", .list (Entry.documents entries))]

def Entry.documents : List Entry → List Document
  | [] => []
  | e :: es => e.document :: Entry.documents es

end

end Script

end ObjectRegistry
