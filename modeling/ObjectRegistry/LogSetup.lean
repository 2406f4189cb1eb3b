import ObjectRegistry.Event

namespace ObjectRegistry

inductive LogFormat where
  | json
  | pretty
  | compact
  deriving DecidableEq

/-- How events would be written by a listener that prints them. -/
structure LogSetup where
  level : Level := .debug
  format : LogFormat := .json
  target : Option String := none
  fromEnv : Bool := false
  withFile : Bool := false
  withLineNumber : Bool := false
  withThreadIds : Bool := false
  withThreadNames : Bool := false
  deriving DecidableEq

def LogFormat.describe : LogFormat → String
  | .json => "Json"
  | .pretty => "Pretty"
  | .compact => "Compact"

def Level.describe : Level → String
  | .trace => "Level(Trace)"
  | .debug => "Level(Debug)"
  | .info => "Level(Info)"
  | .warn => "Level(Warn)"
  | .error => "Level(Error)"

namespace LogSetup

def registryTarget : String := "singleton_registry"

inductive Choice where
  | level (level : Level)
  | format (format : LogFormat)
  | target (target : String)
  | registryOnly
  | fromEnv
  | withFile
  | withLineNumber
  | withThreadIds
  | withThreadNames

def choose (s : LogSetup) : Choice → LogSetup
  | .level level => { s with level }
  | .format format => { s with format }
  | .target target => { s with target := some target }
  | .registryOnly => { s with target := some registryTarget }
  | .fromEnv => { s with fromEnv := true }
  | .withFile => { s with withFile := true }
  | .withLineNumber => { s with withLineNumber := true }
  | .withThreadIds => { s with withThreadIds := true }
  | .withThreadNames => { s with withThreadNames := true }

/-- Whether a listener was put in place. There is none that prints, so nothing ever is. -/
def install (_ : LogSetup) : Bool := false

def describe (s : LogSetup) : String :=
  Text.record "LoggingBuilder"
    [("level", s.level.describe), ("format", s.format.describe),
     ("target", Text.optional (s.target.map Text.quote)), ("from_env", Text.flag s.fromEnv),
     ("with_file", Text.flag s.withFile), ("with_line_number", Text.flag s.withLineNumber),
     ("with_thread_ids", Text.flag s.withThreadIds),
     ("with_thread_names", Text.flag s.withThreadNames)]

end LogSetup

end ObjectRegistry
