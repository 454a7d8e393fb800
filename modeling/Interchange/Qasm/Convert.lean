import Interchange.Convert.Error
import Interchange.Qasm.Circuit
import Interchange.Qasm.Printer

namespace Interchange.Qasm

variable {F : Type} [Scalar F]

def Error.toConvert (f : Framework) : Error F → ConvertError F
  | unknownGate native => .unsupportedGate f native
  | unsupported statement => .unsupportedGate f statement.message
  | circuit e => .ofCircuit f e
  | e => .malformed f (.program e)

def liftConvert {α : Type} (f : Framework) : Except (Error F) α → Except (ConvertError F) α
  | .ok a => .ok a
  | .error e => .error (e.toConvert f)

/-- The circuit of a source, whose header has to be of the version. -/
def decode (version : Version) (source : String) : Except (ConvertError F) (Circuit F) := do
  let program ← liftConvert version.framework (Program.parse source)
  if version.accepts program.version then
    liftConvert version.framework program.toCircuit
  else .error (.malformed version.framework (.version version.header program.version))

def encode [Numeral F] (version : Version) (c : Circuit F) : Except (ConvertError F) String :=
  liftConvert version.framework (write version c)

end Interchange.Qasm
