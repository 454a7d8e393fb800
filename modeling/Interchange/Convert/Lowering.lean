import Interchange.Circuit.Basic
import Interchange.Convert.Error
import Interchange.Framework.Table
import Interchange.Synthesis.Decompose

namespace Interchange.Lowering

variable {F : Type} [Scalar F]

def maxDepth : Nat := 16

/-- Binds the parameters of a gate for a table. Without free parameters none may be left. -/
def bindFor (table : GateTable) (b : Bindings F) (g : Gate F) :
    Except (ConvertError F) (Gate F) := do
  let gate ← ConvertError.lift table.framework (g.substitute b)
  if gate.isParameterized && !table.freeParameters then
    .error (.unboundParameter table.framework ((gate.refs.head?.map (·.name)).getD ""))
  else return gate

/-- A pass over a circuit: the decomposer that serves all of it, and what has been written. -/
structure Pass (F : Type) where
  engine : Synthesis.Decomposer F
  out : Array (Instruction F) := #[]

def Pass.write (pass : Pass F) (i : Instruction F) : Pass F := { pass with out := pass.out.push i }

variable [Eigensolver F]

/-- Writes the instructions of a table that one instruction becomes, with so many levels of
replacement left. Measurements are kept unless the framework measures by itself. -/
def visit (table : GateTable) (b : Bindings F) :
    Nat → Pass F → Instruction F → Except (ConvertError F) (Pass F)
  | levels, pass, i =>
    if i.isMeasure then .ok (if table.implicitMeasurement then pass else pass.write i)
    else do
      let gate ← bindFor table b i.gate
      if table.supports gate.tag then
        return pass.write (← ConvertError.lift table.framework (i.withGate gate))
      else
        let failed (cause : SynthesisError F) : Except (ConvertError F) (Pass F) :=
          .error (.conversion table.framework gate.tag gate.qubits cause)
        match levels with
        | 0 => failed (.decomposition gate.tag gate.qubits (.nesting maxDepth))
        | levels + 1 => match pass.engine.decompose gate with
          | (_, .error e) => failed e
          | (engine, .ok sequence) =>
            let placed ← ConvertError.lift table.framework (Substitute.placeAll sequence i.qubits)
            -- a replacement may hold gates that the table lacks as well
            placed.foldlM (visit table b levels) { pass with engine := engine }

def circuit (table : GateTable) (b : Bindings F) (tolerance : F) (c : Circuit F) :
    Except (ConvertError F) (Circuit F) := do
  let pass ← c.instructions.foldlM (visit table b maxDepth) { engine := { tolerance := tolerance } }
  ConvertError.lift table.framework (c.withInstructions pass.out.toList)

end Interchange.Lowering
