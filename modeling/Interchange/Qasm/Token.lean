import Interchange.Number.Numeral
import Interchange.Number.Written

namespace Interchange.Qasm

open Number (Decimal)

inductive Keyword
  | openqasm | includeFile | qreg | creg | qubit | bit | input | float | angle | gate | opaqueGate
  | measure | reset | barrier | gateU | gateCX | pi | tau | euler
deriving Repr, DecidableEq

namespace Keyword

def all : List Keyword :=
  [openqasm, includeFile, qreg, creg, qubit, bit, input, float, angle, gate, opaqueGate, measure,
    reset, barrier, gateU, gateCX, pi, tau, euler]

def text : Keyword → String
  | openqasm => "OPENQASM"
  | includeFile => "include"
  | qreg => "qreg"
  | creg => "creg"
  | qubit => "qubit"
  | bit => "bit"
  | input => "input"
  | float => "float"
  | angle => "angle"
  | gate => "gate"
  | opaqueGate => "opaque"
  | measure => "measure"
  | reset => "reset"
  | barrier => "barrier"
  | gateU => "U"
  | gateCX => "CX"
  | pi => "pi"
  | tau => "tau"
  | euler => "euler"

def ofText? (word : String) : Option Keyword := all.find? (·.text == word)

end Keyword

inductive Symbol
  | plus | minus | star | slash | power | caret | eq | arrow | lparen | rparen | lbracket | rbracket
  | lbrace | rbrace | semicolon | colon | comma
deriving Repr, DecidableEq

def Symbol.text : Symbol → String
  | plus => "+"
  | minus => "-"
  | star => "*"
  | slash => "/"
  | power => "**"
  | caret => "^"
  | eq => "="
  | arrow => "->"
  | lparen => "("
  | rparen => ")"
  | lbracket => "["
  | rbracket => "]"
  | lbrace => "\x7b"
  | rbrace => "\x7d"
  | semicolon => ";"
  | colon => ":"
  | comma => ","

inductive Token
  | keyword (word : Keyword)
  | symbol (symbol : Symbol)
  | float (value : Decimal)
  | int (value : Nat)
  | string (text : String)
  | identifier (name : String)
deriving Repr, DecidableEq

namespace Token

def text : Token → String
  | keyword word => word.text
  | symbol s => s.text
  | float value => Number.plain.write value.toDouble
  | int value => toString value
  | string text => "\"" ++ text ++ "\""
  | identifier name => name

end Token

/-- A token and the line where it starts, from one on. -/
structure Placed where
  token : Token
  line : Nat
deriving Repr, DecidableEq

end Interchange.Qasm
