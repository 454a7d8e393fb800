namespace Interchange

/-- The closed set of gates that every framework's gates are named in. -/
inductive Tag
  | h | x | y | z | s | sdg | t | tdg | id | sx | sxdg
  | phase | rx | ry | rz | u
  | cx | cy | cz | ch | swap | iswap | cphase | crx | cry | crz | rxx | ryy | rzz
  | ccx | cswap
  | unitary | measure
deriving Repr, DecidableEq

namespace Tag

def all : List Tag :=
  [h, x, y, z, s, sdg, t, tdg, id, sx, sxdg, phase, rx, ry, rz, u, cx, cy, cz, ch, swap, iswap,
    cphase, crx, cry, crz, rxx, ryy, rzz, ccx, cswap, unitary, measure]

/-- The gates that replacement sequences are written in. -/
def commonCore : List Tag := [h, x, y, z, s, sdg, t, tdg, id, rx, ry, rz, cx, cz, swap]

def name : Tag → String
  | h => "h"
  | x => "x"
  | y => "y"
  | z => "z"
  | s => "s"
  | sdg => "sdg"
  | t => "t"
  | tdg => "tdg"
  | id => "id"
  | sx => "sx"
  | sxdg => "sxdg"
  | phase => "p"
  | rx => "rx"
  | ry => "ry"
  | rz => "rz"
  | u => "u"
  | cx => "cx"
  | cy => "cy"
  | cz => "cz"
  | ch => "ch"
  | swap => "swap"
  | iswap => "iswap"
  | cphase => "cp"
  | crx => "crx"
  | cry => "cry"
  | crz => "crz"
  | rxx => "rxx"
  | ryy => "ryy"
  | rzz => "rzz"
  | ccx => "ccx"
  | cswap => "cswap"
  | unitary => "unitary"
  | measure => "measure"

def ofName? (name : String) : Option Tag := all.find? (·.name == name)

/-- The number of qubits, unless a matrix decides it. -/
def qubits? : Tag → Option Nat
  | h | x | y | z | s | sdg | t | tdg | id | sx | sxdg | phase | rx | ry | rz | u | measure =>
    some 1
  | cx | cy | cz | ch | swap | iswap | cphase | crx | cry | crz | rxx | ryy | rzz => some 2
  | ccx | cswap => some 3
  | unitary => none

def paramCount : Tag → Nat
  | phase | rx | ry | rz | cphase | crx | cry | crz | rxx | ryy | rzz => 1
  | u => 3
  | _ => 0

def controls : Tag → Nat
  | cx | cy | cz | ch | cphase | crx | cry | crz | cswap => 1
  | ccx => 2
  | _ => 0

def base? : Tag → Option Tag
  | cx | ccx => some x
  | cy => some y
  | cz => some z
  | ch => some h
  | cphase => some phase
  | crx => some rx
  | cry => some ry
  | crz => some rz
  | cswap => some swap
  | _ => none

def isCommonCore (tag : Tag) : Bool := commonCore.contains tag

def isUnitary (tag : Tag) : Bool := tag != measure

end Tag

end Interchange
