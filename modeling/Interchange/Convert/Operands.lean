import Interchange.Json.Record

namespace Interchange

/-- The qubits of a gate in a document, where one control or target has a field of its own. -/
structure Operands where
  control : Option Nat := none
  controls : Option (List Nat) := none
  target : Option Nat := none
  targets : Option (List Nat) := none
deriving Repr, BEq

namespace Operands

def fieldNames : List String := ["control", "controls", "target", "targets"]

def ofRecord? (r : Json.Record) : Option Operands := do
  return {
    control := ← r.optional "control" Json.asIndex?
    controls := ← r.optional "controls" (Json.asListOf? Json.asIndex?)
    target := ← r.optional "target" Json.asIndex?
    targets := ← r.optional "targets" (Json.asListOf? Json.asIndex?) }

def toRecord (o : Operands) : Json.Record :=
  Json.entry? "control" o.control .ofNat ++ Json.entry? "controls" o.controls .ofIndices ++
    Json.entry? "target" o.target .ofNat ++ Json.entry? "targets" o.targets .ofIndices

def controlQubits (o : Operands) : List Nat := o.control.toList ++ o.controls.getD []

def qubits (o : Operands) : List Nat :=
  o.controlQubits ++ o.target.toList ++ o.targets.getD []

def withTargets (o : Operands) : List Nat → Operands
  | [t] => { o with target := some t }
  | ts => { o with targets := some ts }

def withControls (o : Operands) : List Nat → Operands
  | [] => o
  | [c] => { o with control := some c }
  | cs => { o with controls := some cs }

/-- Qubits of which the first so many are controls. -/
def ofQubits (controls : Nat) (qubits : List Nat) : Operands :=
  (withControls {} (qubits.take controls)).withTargets (qubits.drop controls)

theorem qubits_ofQubits (controls : Nat) (qs : List Nat) : (ofQubits controls qs).qubits = qs := by
  suffices h : ∀ cs ts, (withTargets (withControls {} cs) ts).qubits = cs ++ ts by
    simp [ofQubits, h]
  intro cs ts
  rcases cs with _ | ⟨c, _ | ⟨d, cs⟩⟩ <;> rcases ts with _ | ⟨t, _ | ⟨u, ts⟩⟩ <;>
    simp [withTargets, withControls, qubits, controlQubits]

end Operands

end Interchange
