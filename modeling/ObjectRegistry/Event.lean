import ObjectRegistry.Fault
import ObjectRegistry.Handle

namespace ObjectRegistry

inductive Level where
  | trace
  | debug
  | info
  | warn
  | error
  deriving DecidableEq

def Level.label : Level → String
  | trace => "TRACE"
  | debug => "DEBUG"
  | info => "INFO"
  | warn => "WARN"
  | error => "ERROR"

inductive Event where
  | created (capacity : Nat) (overriding : Bool)
  | selfAliasIgnored (aka : Name)
  | aliasOverridden (aka registered name : Name)
  | aliasRegistered (aka name : Name)
  | finishedRegistered (name : Name) (count : Nat)
  | finishedFound (name : Name)
  | earlyFound (name : Name)
  | creationStarted (name : Name)
  | earlyDiscarded (name : Name)
  | creationFailed (name : Name) (fault : Fault) (suppressed : Nat)
  | earlyDeferred (name : Name)
  | earlyExposed (name : Name)
  | dependencyRegistered (dependedOn dependent : Name)
  | teardownStarted (singletons : Nat)
  | dependentsFirst (name : Name) (dependents : List Name)
  | callbackFailed (name : Name) (fault : Fault)
  | teardownEnded (destroyed failures : Nat)
  | otherType (name : Name) (expected : Kind)

namespace Event

inductive Field where
  | text (value : String)
  | number (value : Nat)
  | flag (value : Bool)

def level : Event → Level
  | created .. | selfAliasIgnored .. | aliasRegistered .. | finishedRegistered ..
  | creationStarted .. | creationFailed .. | dependentsFirst .. | teardownEnded .. => .debug
  | finishedFound .. | earlyFound .. | earlyDiscarded .. | earlyDeferred .. | earlyExposed ..
  | dependencyRegistered .. | otherType .. => .trace
  | aliasOverridden .. | teardownStarted .. => .info
  | callbackFailed .. => .error

def message : Event → String
  | created .. => "Creating new singleton registry"
  | selfAliasIgnored .. => "Alias definition ignored since it points to same name"
  | aliasOverridden .. => "Overriding alias definition with new target name"
  | aliasRegistered .. => "Alias registered"
  | finishedRegistered .. => "Registered finished singleton"
  | finishedFound .. => "Singleton resolved without locking"
  | earlyFound .. => "Returning early reference to singleton still in creation"
  | creationStarted .. => "Creating shared instance of singleton"
  | earlyDiscarded .. => "Discarded early state of failed construction"
  | creationFailed .. => "Singleton creation failed"
  | earlyDeferred .. => "Registered early reference factory"
  | earlyExposed .. => "Exposed early reference to break a circular reference"
  | dependencyRegistered .. => "Registered dependency"
  | teardownStarted .. => "Destroying singletons"
  | dependentsFirst .. => "Destroying dependents first"
  | callbackFailed .. => "Destroy callback threw an error"
  | teardownEnded .. => "All singletons destroyed"
  | otherType .. => "Singleton exists but has a different type"

def fields : Event → List (String × Field)
  | created capacity overriding =>
    [("capacity", .number capacity), ("allow_alias_overriding", .flag overriding)]
  | selfAliasIgnored aka => [("alias", .text aka)]
  | aliasOverridden aka registered name =>
    [("alias", .text aka), ("registered", .text registered), ("name", .text name)]
  | aliasRegistered aka name => [("alias", .text aka), ("name", .text name)]
  | finishedRegistered name count => [("name", .text name), ("count", .number count)]
  | finishedFound name => [("name", .text name), ("location", .text "finished")]
  | earlyFound name => [("name", .text name), ("location", .text "early")]
  | creationStarted name | earlyDiscarded name | earlyDeferred name | earlyExposed name =>
    [("name", .text name)]
  | creationFailed name fault suppressed =>
    [("name", .text name), ("error", .text fault.message), ("suppressed", .number suppressed)]
  | dependencyRegistered dependedOn dependent =>
    [("depended_on", .text dependedOn), ("dependent", .text dependent)]
  | teardownStarted singletons => [("singletons", .number singletons)]
  | dependentsFirst name dependents =>
    [("name", .text name), ("dependents", .text (Text.listing (dependents.map Text.quote)))]
  | callbackFailed name fault => [("name", .text name), ("error", .text fault.message)]
  | teardownEnded destroyed failures =>
    [("destroyed", .number destroyed), ("failures", .number failures)]
  | otherType name expected => [("name", .text name), ("expected", .text expected.typeName)]

end Event

end ObjectRegistry
