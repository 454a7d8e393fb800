import Interchange.Number.Written
import Interchange.Scalar.Double
import Interchange.Transpile.Options
import Interchange.Yaml.Document
import Interchange.Yaml.Record

namespace Interchange

structure Config where
  contiguous : Bool := false
  reverse : Bool := false
  tolerance : Float := Options.defaultTolerance
  maxQubits : Nat := defaultMaxQubits
  logLevel : String := "info"
  logFormat : String := "console"

inductive InvalidSetting
  | tolerance (value : Float)
  | maxQubits (value : Nat)
  | logFormat (name : String)
deriving Repr

inductive ConfigError
  | missingFile
  | unreadable
  | invalid (setting : InvalidSetting)
deriving Repr

def InvalidSetting.message : InvalidSetting → String
  | tolerance value => "atol must be positive and finite, got " ++ Number.plain.write value
  | maxQubits value => s!"max_qubits must be between 1 and {maxDenseQubits}, got {value}"
  | logFormat name => s!"Invalid log format: {name}"

def ConfigError.message : ConfigError → String
  | missingFile => "IO error: file not found"
  | unreadable => "Parse error: not a settings document"
  | invalid setting => "Validation error: " ++ setting.message

namespace Config

def check (c : Config) : Except ConfigError Unit :=
  if !(c.tolerance.isFinite && 0.0 < c.tolerance) then .error (.invalid (.tolerance c.tolerance))
  else if c.maxQubits < 1 ∨ maxDenseQubits < c.maxQubits then
    .error (.invalid (.maxQubits c.maxQubits))
  else if c.logFormat ≠ "console" ∧ c.logFormat ≠ "json" then
    .error (.invalid (.logFormat c.logFormat))
  else .ok ()

/-- Settings in three sections; what is not set keeps its default. -/
def ofYaml? (root : Yaml) : Option Config := do
  let sections ← root.record? ["transpile", "oracle", "logging"] root
  let sectionOf (name : String) (fields : List String) : Option Yaml.Record :=
    sections.get name [] (root.record? fields)
  let transpile ← sectionOf "transpile" ["ensure_contiguous", "reverse_qubits", "atol"]
  let oracle ← sectionOf "oracle" ["max_qubits"]
  let logging ← sectionOf "logging" ["level", "format"]
  let defaults : Config := {}
  return {
    contiguous := ← transpile.get "ensure_contiguous" defaults.contiguous Yaml.asBool?
    reverse := ← transpile.get "reverse_qubits" defaults.reverse Yaml.asBool?
    tolerance := ← transpile.get "atol" defaults.tolerance Yaml.asDouble?
    maxQubits := ← oracle.get "max_qubits" defaults.maxQubits (Yaml.asNat? Number.indexLimit)
    logLevel := ← logging.get "level" defaults.logLevel Yaml.asText?
    logFormat := ← logging.get "format" defaults.logFormat Yaml.asText? }

def parse (text : String) : Except ConfigError Config :=
  match (Yaml.parse? text).bind ofYaml? with
  | none => .error .unreadable
  | some c => do
    c.check
    return c

def options (c : Config) : Options Float where
  contiguous := c.contiguous
  reverse := c.reverse
  tolerance := c.tolerance
  maxQubits := c.maxQubits

end Config

end Interchange
