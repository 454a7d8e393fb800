import Interchange.Cirq.Document
import Interchange.Convert.Placement

namespace Interchange.Cirq

variable {F : Type} [Scalar F]

/-- A qubit has to be on the line, with an index that leaves room for a width. -/
def LineQubit.check (q : LineQubit) : Except (ConvertError F) Unit :=
  if q.type ≠ "LineQubit" then .error (.malformed .cirq (.qubitType q.type))
  else if q.x + 1 < Number.indexLimit then .ok ()
  else .error (.malformed .cirq (.qubitIndex q.x))

/-- The classical bit that a key names: `c` and an index. -/
def explicitBit? (key : String) : Option Nat :=
  match key.toList with
  | 'c' :: digits => Number.readNat? Number.indexLimit digits
  | _ => none

/-- The first bits of the keys that name none, and the next free bit. -/
structure KeyBits where
  assigned : List (String × Nat) := []
  next : Nat

namespace KeyBits

/-- Free bits start after the highest bit that a measurement of one qubit names. -/
def start (d : Document F) : Except (ConvertError F) KeyBits :=
  let named := d.operations.filterMap fun o =>
    if o.gate.type = "MeasurementGate" ∧ o.qubits.length = 1 then o.gate.key.bind explicitBit?
    else none
  match named.max? with
  | none => .ok { next := 0 }
  | some k =>
    if k + 1 < Number.indexLimit then .ok { next := k + 1 }
    else .error (.malformed .cirq (.measurementBit k))

/-- So many bits from the first one on. Their end wraps round at the limit of an index, and where it
does there is no bit before it. -/
def block (first width : Nat) : List Nat :=
  List.range' first ((first + width) % Number.indexLimit - first)

/-- The bits of a key, as many as there are qubits. A new key gets the next block. -/
def bits (s : KeyBits) (key : String) (width : Nat) :
    Except (ConvertError F) (KeyBits × List Nat) :=
  -- a key names one bit, so a wider measurement gets a block under it
  match if width = 1 then explicitBit? key else none with
  | some k => .ok (s, [k])
  | none => match s.assigned.lookup key with
    -- the block may have been handed out for fewer qubits
    | some first => .ok (s, block first width)
    | none =>
      if s.next + width < Number.indexLimit then
        .ok (⟨(key, s.next) :: s.assigned, s.next + width⟩, block s.next width)
      else .error (.malformed .cirq (.measurementBit s.next))

end KeyBits

def exponentTolerance : F := Scalar.tenth 12

variable [Numeral F]

/-- The name of a gate that is not understood, with its exponent unless that is one. -/
def GateObject.unsupported {α : Type} (g : GateObject F) : Except (ConvertError F) α :=
  .error (.unsupportedGate .cirq (match g.exponent with
    | some (.number e) => if e == 1 then g.type else g.type ++ "**" ++ Numeral.write e
    | _ => g.type))

/-- The gate that a power of a gate type is: a named one at some exponents, and a rotation by the
exponent times `π` where the type has one. -/
def GateObject.ofPower (g : GateObject F) (exponent : Param F) :
    Except (ConvertError F) (Tag × List (Param F)) :=
  let is (target : F) : Bool :=
    exponent.value?.any fun e => Scalar.abs (e - target) < exponentTolerance
  let half : F := Scalar.half
  let quarter : F := Scalar.half * Scalar.half
  -- a gate that is its own inverse has the same power at one and at minus one
  let involution := is 1 || is (-1)
  let angle := [Param.pi * exponent]
  match g.type with
  | "HPowGate" => if involution then .ok (.h, []) else g.unsupported
  | "XPowGate" =>
    if involution then .ok (.x, [])
    else if is half then .ok (.sx, [])
    else if is (-half) then .ok (.sxdg, [])
    else .ok (.rx, angle)
  | "YPowGate" => if involution then .ok (.y, []) else .ok (.ry, angle)
  | "ZPowGate" =>
    if involution then .ok (.z, [])
    else if is half then .ok (.s, [])
    else if is (-half) then .ok (.sdg, [])
    else if is quarter then .ok (.t, [])
    else if is (-quarter) then .ok (.tdg, [])
    else .ok (.phase, angle)
  | "CZPowGate" => if involution then .ok (.cz, []) else .ok (.cphase, angle)
  | "CXPowGate" | "CNotPowGate" => if involution then .ok (.cx, []) else g.unsupported
  | "SwapPowGate" => if involution then .ok (.swap, []) else g.unsupported
  -- not its own inverse
  | "ISwapPowGate" => if is 1 then .ok (.iswap, []) else g.unsupported
  | "CCXPowGate" | "CCNotPowGate" => if involution then .ok (.ccx, []) else g.unsupported
  | "XXPowGate" => .ok (.rxx, angle)
  | "YYPowGate" => .ok (.ryy, angle)
  | "ZZPowGate" => .ok (.rzz, angle)
  | _ => g.unsupported

def rotation? : String → Option Tag
  | "Rx" => some .rx
  | "Ry" => some .ry
  | "Rz" => some .rz
  | _ => none

def readExpression (c : Circuit F) (e : Expression F) :
    Except (ConvertError F) (Circuit F × Param F) :=
  match e.toParam c.registry with
  | .ok (registry, p) => .ok ({ c with registry := registry }, p)
  | .error cause => .error (.malformed .cirq cause)

def GateObject.classify (g : GateObject F) (c : Circuit F) :
    Except (ConvertError F) (Circuit F × Tag × List (Param F)) :=
  match rotation? g.type with
  | some tag => match g.rads with
    | none => .error (.malformed .cirq (.withoutRads g.type))
    | some rads => do
      let (c, p) ← readExpression c rads
      return (c, tag, [p])
  | none =>
    if g.type = "CSwapGate" then .ok (c, .cswap, [])
    else do
      let (c, exponent) ← readExpression c (g.exponent.getD (.number 1))
      return (c, ← g.ofPower exponent)

def Operation.read (o : Operation F) (s : Circuit F × KeyBits) :
    Except (ConvertError F) (Circuit F × KeyBits) := do
  let (c, keys) := s
  let qubits := o.qubits.map (·.x)
  match o.gate.type with
  | "MeasurementGate" =>
    let (keys, bits) ← keys.bits (o.gate.key.getD "m") (qubits.length % Number.indexLimit)
    let c ← (qubits.zip bits).foldlM
      (fun c pair => ConvertError.lift .cirq (c.measure pair.1 pair.2)) c
    return (c, keys)
  | "IdentityGate" =>
    let c ← qubits.foldlM (fun c q => ConvertError.lift .cirq (c.apply .id [] [q])) c
    return (c, keys)
  | "MatrixGate" => match o.gate.matrix with
    | none => .error (.malformed .cirq .matrixGateWithoutMatrix)
    | some rows =>
      let gate ← ConvertError.lift .cirq (Gate.ofMatrix (← readMatrix .cirq rows))
      return (← ConvertError.lift .cirq (c.pushGate gate qubits), keys)
  | _ =>
    let (c, tag, params) ← o.gate.classify c
    return (← ConvertError.lift .cirq (c.apply tag params qubits), keys)

def decode (d : Document F) : Except (ConvertError F) (Circuit F) := do
  let qubits := d.operations.flatMap (·.qubits)
  qubits.forM LineQubit.check
  let keys ← KeyBits.start d
  let width := (qubits.map (·.x + 1)).foldl max 0
  let (c, _) ← d.operations.foldlM (fun s o => o.read s) ({ qubits := width, clbits := 0 }, keys)
  return c

end Interchange.Cirq
