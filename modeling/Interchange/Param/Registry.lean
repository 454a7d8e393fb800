import Interchange.Param.Basic

namespace Interchange

/-- The free parameters of a circuit; a parameter's number is its place in the list. -/
structure Registry where
  names : List String := []
deriving Repr, DecidableEq

namespace Registry

def register (r : Registry) (name : String) : Registry × Handle :=
  match r.names.idxOf? name with
  | some id => (r, ⟨id, name⟩)
  | none => (⟨r.names ++ [name]⟩, ⟨r.names.length, name⟩)

def registerAll (r : Registry) (names : List String) : Registry :=
  names.foldl (fun r name => (r.register name).1) r

def ofNames (names : List String) : Registry := registerAll {} names

def get? (r : Registry) (id : Nat) : Option Handle := r.names[id]?.map (⟨id, ·⟩)

def lookup? (r : Registry) (name : String) : Option Handle :=
  (r.names.idxOf? name).map (⟨·, name⟩)

def contains (r : Registry) (handle : Handle) : Bool := r.names[handle.id]? == some handle.name

def size (r : Registry) : Nat := r.names.length

end Registry

/-- Values for free parameters by name; a name has one value. -/
structure Bindings (F : Type) where
  entries : List (String × F) := []

namespace Bindings

variable {F : Type}

def get? (b : Bindings F) (name : String) : Option F := b.entries.lookup name

def insert (b : Bindings F) (name : String) (value : F) : Bindings F :=
  ⟨b.entries.filter (·.1 != name) ++ [(name, value)]⟩

def ofList (entries : List (String × F)) : Bindings F :=
  entries.foldl (fun b e => b.insert e.1 e.2) {}

def size (b : Bindings F) : Nat := b.entries.length

end Bindings

end Interchange
