import Interchange.Config.Basic

namespace Interchange

abbrev Environment := String → Option String

def readSwitch? (text : String) : Option Bool :=
  let word := String.ofList ((Text.trim text.toList).map Char.toLower)
  if ["1", "true", "yes", "on"].contains word then some true
  else if ["0", "false", "no", "off"].contains word then some false
  else none

namespace Config

/-- Settings with what the environment gives; values that cannot be read are ignored. -/
def withEnvironment (c : Config) (env : Environment) : Config where
  contiguous := ((env "QBRIDGE_ENSURE_CONTIGUOUS").bind readSwitch?).getD c.contiguous
  reverse := ((env "QBRIDGE_REVERSE_QUBITS").bind readSwitch?).getD c.reverse
  tolerance :=
    ((env "QBRIDGE_ATOL").bind fun text => Number.readDouble? text.toList).getD c.tolerance
  maxQubits :=
    ((env "QBRIDGE_MAX_QUBITS").bind fun text => Number.readNat? Number.indexLimit text.toList).getD
      c.maxQubits
  logLevel := (env "QBRIDGE_LOG_LEVEL").getD c.logLevel
  logFormat := (env "QBRIDGE_LOG_FORMAT").getD c.logFormat

def ofEnvironment (env : Environment) : Config := withEnvironment {} env

/-- Settings of a document, if there is one, over which the environment takes precedence. -/
def load (document : Option String) (env : Environment) : Except ConfigError Config := do
  let base ← match document with
    | some text => parse text
    | none => pure {}
  let c := base.withEnvironment env
  -- a value from the environment can be read and still be out of range
  c.check
  return c

end Config

inductive LogFormat
  | console | json
deriving Repr, DecidableEq

def LogFormat.ofName (name : String) : LogFormat := if name = "json" then json else console

structure LogSettings where
  level : String
  format : LogFormat
deriving Repr, DecidableEq

namespace LogSettings

def ofConfig (c : Config) : LogSettings := ⟨c.logLevel, .ofName c.logFormat⟩

/-- The program's own variable comes before the general one. -/
def ofEnvironment (env : Environment) : LogSettings :=
  ⟨((env "QBRIDGE_LOG").or (env "RUST_LOG")).getD "info",
    ((env "QBRIDGE_LOG_FORMAT").map LogFormat.ofName).getD .console⟩

end LogSettings

end Interchange
