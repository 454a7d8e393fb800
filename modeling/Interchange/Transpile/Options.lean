import Interchange.Circuit.Unitary
import Interchange.Param.Registry

namespace Interchange

structure Options (F : Type) where
  /-- Move the referenced qubits to the indices from zero on. -/
  contiguous : Bool := false
  /-- In reverse order; it has no effect unless `contiguous`. -/
  reverse : Bool := false
  bindings : Bindings F := {}
  tolerance : F
  /-- The widest circuit that is multiplied out for a comparison. -/
  maxQubits : Nat := defaultMaxQubits

namespace Options

variable {F : Type} [Scalar F]

def defaultTolerance : F := Scalar.tenth 7

def default : Options F := { tolerance := defaultTolerance }

def withContiguous (o : Options F) (reverse : Bool) : Options F :=
  { o with contiguous := true, reverse := reverse }

def bind (o : Options F) (name : String) (value : F) : Options F :=
  { o with bindings := o.bindings.insert name value }

def withBindings (o : Options F) (b : Bindings F) : Options F := { o with bindings := b }

/-- Only a positive finite tolerance is taken. -/
def withTolerance (o : Options F) (tolerance : F) : Options F :=
  if Scalar.isFinite tolerance ∧ 0 < tolerance then { o with tolerance := tolerance } else o

/-- The width is moved into the range that can be multiplied out. -/
def withMaxQubits (o : Options F) (maxQubits : Nat) : Options F :=
  { o with maxQubits := min (max maxQubits 1) maxDenseQubits }

end Options

end Interchange
