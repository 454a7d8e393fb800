import Interchange.Framework.Table
import Interchange.Qasm.Lexer

namespace Interchange.Qasm

inductive Version
  | v2 | v3
deriving Repr, DecidableEq

/-- The gates of version 2; parameters have to be numbers. -/
def table2 : GateTable where
  framework := .qasm2
  entries :=
    [(.h, "h"), (.x, "x"), (.y, "y"), (.z, "z"), (.s, "s"), (.sdg, "sdg"), (.t, "t"),
      (.tdg, "tdg"), (.id, "id"), (.sx, "sx"), (.sxdg, "sxdg"), (.phase, "p"), (.rx, "rx"),
      (.ry, "ry"), (.rz, "rz"), (.u, "u"), (.cx, "cx"), (.cy, "cy"), (.cz, "cz"), (.ch, "ch"),
      (.swap, "swap"), (.cphase, "cp"), (.crx, "crx"), (.cry, "cry"), (.crz, "crz"),
      (.rxx, "rxx"), (.rzz, "rzz"), (.ccx, "ccx"), (.cswap, "cswap"), (.measure, "measure")]

/-- The gates of version 3; inputs carry free parameters. -/
def table3 : GateTable where
  framework := .qasm3
  entries :=
    [(.h, "h"), (.x, "x"), (.y, "y"), (.z, "z"), (.s, "s"), (.sdg, "sdg"), (.t, "t"),
      (.tdg, "tdg"), (.id, "id"), (.sx, "sx"), (.phase, "p"), (.rx, "rx"), (.ry, "ry"),
      (.rz, "rz"), (.u, "u"), (.cx, "cx"), (.cy, "cy"), (.cz, "cz"), (.ch, "ch"),
      (.swap, "swap"), (.cphase, "cp"), (.crx, "crx"), (.cry, "cry"), (.crz, "crz"),
      (.ccx, "ccx"), (.cswap, "cswap"), (.measure, "measure")]
  freeParameters := true

namespace Version

def framework : Version → Framework
  | v2 => .qasm2
  | v3 => .qasm3

def ofFramework? : Framework → Option Version
  | .qasm2 => some v2
  | .qasm3 => some v3
  | _ => none

def table : Version → GateTable
  | v2 => table2
  | v3 => table3

def header : Version → String
  | v2 => "OPENQASM 2.0;"
  | v3 => "OPENQASM 3.0;"

def library : Version → String
  | v2 => "include \"qelib1.inc\";"
  | v3 => "include \"stdgates.inc\";"

def accepts : Version → String → Bool
  | v2, text => "2.".isPrefixOf text
  | v3, text => "3.".isPrefixOf text

def ofToken? : Token → Option Version
  | .int 2 => some v2
  | .int 3 => some v3
  | .float value =>
    let x := value.toDouble
    if 2.0 ≤ x ∧ x < 3.0 then some v2
    else if 3.0 ≤ x ∧ x < 4.0 then some v3
    else none
  | _ => none

/-- Reads the version off the first two tokens of a source. -/
def detect? (source : String) : Option Version :=
  match firstToken? source.toList with
  | some (.ok (.keyword .openqasm), rest) => match firstToken? rest with
    | some (.ok token, _) => ofToken? token
    | _ => none
  | _ => none

end Version

end Interchange.Qasm
