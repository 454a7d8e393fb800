namespace Interchange

inductive Yaml.Style
  | plain
  | singleQuoted
  | doubleQuoted
  | literal
  | folded
deriving Repr, DecidableEq

/-- A node of a document: scalars, sequences and mappings, nodes with a number by which they are
found again, and references to such nodes. -/
inductive Yaml
  | scalar (style : Yaml.Style) (tag : Option String) (text : String)
  | sequence (items : List Yaml)
  | mapping (entries : List (Yaml × Yaml))
  | anchored (number : Nat) (node : Yaml)
  | reference (number : Nat)
deriving Repr

namespace Yaml

def empty : Yaml := scalar .plain none ""

mutual

/-- The numbered nodes, each before the ones inside it. -/
def anchors : Yaml → List (Nat × Yaml)
  | scalar .. | reference _ => []
  | sequence items => anchorsOfItems items
  | mapping entries => anchorsOfEntries entries
  | anchored number node => (number, node) :: node.anchors

def anchorsOfItems : List Yaml → List (Nat × Yaml)
  | [] => []
  | item :: items => item.anchors ++ anchorsOfItems items

def anchorsOfEntries : List (Yaml × Yaml) → List (Nat × Yaml)
  | [] => []
  | (key, value) :: entries => key.anchors ++ value.anchors ++ anchorsOfEntries entries

end

/-- The node that a node of a document stands for. Of several nodes with one number the last one in
the document counts. -/
def targetIn (root : Yaml) : Yaml → Yaml
  | anchored _ node => node
  | reference number => (root.anchors.reverse.lookup number).getD empty
  | node => node

end Yaml

end Interchange
