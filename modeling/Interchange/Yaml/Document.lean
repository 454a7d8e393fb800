import Interchange.Parsed
import Interchange.Yaml.Scan

namespace Interchange.Yaml

/-- Where a node stands: in brackets, on lines of its own, or as a part of an entry on lines, where
a sequence need not be indented. -/
inductive Place
  | flow
  | block
  | entry
deriving DecidableEq

def Token.startsContent (place : Place) : Token → Bool
  | scalar .. | flowSequenceStart | flowMappingStart => true
  | blockSequenceStart | blockMappingStart => place ≠ .flow
  | blockEntry => place = .entry
  | _ => false

/-- The tokens that may follow instead of a node, by what the node is a part of. -/
def Token.endsBlockItem (t : Token) : Bool := t = blockEntry || t = blockEnd

def Token.endsEntryPart (t : Token) : Bool := t = key || t = value || t = blockEnd

def Token.endsDash (t : Token) : Bool := t.endsBlockItem || t.endsEntryPart

def Token.endsFlowKey (t : Token) : Bool := t = value || t = flowEntry || t = flowMappingEnd

def Token.endsFlowValue (t : Token) : Bool := t = flowEntry || t = flowMappingEnd

def Token.endsPairValue (t : Token) : Bool := t = flowEntry || t = flowSequenceEnd

def Token.endsDocument (t : Token) : Bool := t = directive || t = documentStart || t = documentEnd

abbrev Reading (α : Type) (bound : Nat) := Option (Parsed Token α bound)

mutual

/-- A node: a reference, or content with or without a name and a tag in either order. -/
def node (place : Place) (ts : List Token) : Reading Yaml ts.length :=
  match ts with
  | .reference number :: rest => some (.here (.reference number) rest)
  | .anchor number :: .tag name :: rest =>
    (propertied place (some name) rest).map fun p => (p.map (.anchored number)).behind
  | .tag name :: .anchor number :: rest =>
    (propertied place (some name) rest).map fun p => (p.map (.anchored number)).behind
  | .anchor number :: rest => (propertied place none rest).map fun p => p.map (.anchored number)
  | .tag name :: rest => propertied place (some name) rest
  | ts => content place none ts
termination_by (ts.length, 3)

def propertied (place : Place) (tag : Option String) (ts : List Token) :
    Reading Yaml (ts.length + 1) :=
  if ts.head?.any (·.startsContent place) then (content place tag ts).map .behind
  else some (.here (.scalar .plain tag "") ts)
termination_by (ts.length, 2)

def content (place : Place) (tag : Option String) (ts : List Token) : Reading Yaml ts.length :=
  match ts with
  | .scalar style text :: rest => some (.here (.scalar style tag text) rest)
  | .flowSequenceStart :: rest => (flowItems rest).map fun p => (p.map .sequence).behind
  | .flowMappingStart :: rest => (flowEntries rest).map fun p => (p.map .mapping).behind
  | .blockSequenceStart :: rest =>
    if place = .flow then none else (blockItems rest).map fun p => (p.map .sequence).behind
  | .blockMappingStart :: rest =>
    if place = .flow then none else (blockEntries rest).map fun p => (p.map .mapping).behind
  | .blockEntry :: rest =>
    if place = .entry then (dashes rest).map fun p => p.map .sequence else none
  | _ => none
termination_by (ts.length, 1)

def slot (place : Place) (ends : Token → Bool) (ts : List Token) : Reading Yaml (ts.length + 1) :=
  if ts.head?.any ends then some (.here .empty ts) else (node place ts).map .behind
termination_by (ts.length, 4)

def blockItems (ts : List Token) : Reading (List Yaml) ts.length :=
  match ts with
  | .blockEntry :: rest => do
    let item ← slot .block Token.endsBlockItem rest
    have := item.rest_lt
    let items ← blockItems item.rest
    return item.after (items.map (item.value :: ·))
  | .blockEnd :: rest => some (.here [] rest)
  | _ => none
termination_by (ts.length, 0)

/-- The items after a first dash of a sequence that is not indented. -/
def dashes (ts : List Token) : Reading (List Yaml) (ts.length + 1) := do
  let item ← slot .block Token.endsDash ts
  have := item.rest_lt
  let items ← moreDashes item.rest
  return item.since (items.map (item.value :: ·))
termination_by (ts.length + 1, 0)

def moreDashes (ts : List Token) : Reading (List Yaml) (ts.length + 1) :=
  match ts with
  | .blockEntry :: rest => (dashes rest).map .behind
  | ts => some (.here [] ts)
termination_by (ts.length, 1)

def entryValue (place : Place) (ends : Token → Bool) (ts : List Token) :
    Reading Yaml (ts.length + 1) :=
  match ts with
  | .value :: rest => (slot place ends rest).map .behind
  | ts => some (.here .empty ts)
termination_by (ts.length, 5)

def blockEntries (ts : List Token) : Reading (List (Yaml × Yaml)) ts.length :=
  match ts with
  | .key :: rest => do
    let key ← slot .entry Token.endsEntryPart rest
    have := key.rest_lt
    let value ← (entryValue .entry Token.endsEntryPart key.rest).map key.since
    have := value.rest_lt
    let entries ← blockEntries value.rest
    return value.after (entries.map ((key.value, value.value) :: ·))
  | .blockEnd :: rest => some (.here [] rest)
  | _ => none
termination_by (ts.length, 0)

/-- The items of a sequence in brackets. An item with a key is a mapping of one entry. -/
def flowItems (ts : List Token) : Reading (List Yaml) ts.length :=
  match ts with
  | .flowSequenceEnd :: rest => some (.here [] rest)
  | .key :: rest => do
    let key ← pairKey rest
    have := key.rest_lt
    let value ← (entryValue .flow Token.endsPairValue key.rest).map key.since
    have := value.rest_lt
    let items ← moreFlowItems value.rest
    return value.after (items.map (.mapping [(key.value, value.value)] :: ·))
  | ts => do
    let item ← node .flow ts
    have := item.rest_lt
    let items ← moreFlowItems item.rest
    return item.after (items.map (item.value :: ·))
termination_by (ts.length, 4)

/-- The key of an item with a key. A missing key takes the token that stands there. -/
def pairKey (ts : List Token) : Reading Yaml (ts.length + 1) :=
  match ts with
  | .value :: rest | .flowEntry :: rest | .flowSequenceEnd :: rest =>
    some (Parsed.here .empty rest).behind
  | ts => (node .flow ts).map .behind
termination_by (ts.length, 4)

def moreFlowItems (ts : List Token) : Reading (List Yaml) ts.length :=
  match ts with
  | .flowSequenceEnd :: rest => some (.here [] rest)
  | .flowEntry :: rest => (flowItems rest).map .behind
  | _ => none
termination_by (ts.length, 0)

/-- The entries of a mapping in braces. An entry without a key mark has no value. -/
def flowEntries (ts : List Token) : Reading (List (Yaml × Yaml)) ts.length :=
  match ts with
  | .flowMappingEnd :: rest => some (.here [] rest)
  | .key :: rest => do
    let key ← slot .flow Token.endsFlowKey rest
    have := key.rest_lt
    let value ← (entryValue .flow Token.endsFlowValue key.rest).map key.since
    have := value.rest_lt
    let entries ← moreFlowEntries value.rest
    return value.after (entries.map ((key.value, value.value) :: ·))
  | ts => do
    let key ← node .flow ts
    have := key.rest_lt
    let entries ← moreFlowEntries key.rest
    return key.after (entries.map ((key.value, .empty) :: ·))
termination_by (ts.length, 4)

def moreFlowEntries (ts : List Token) : Reading (List (Yaml × Yaml)) ts.length :=
  match ts with
  | .flowMappingEnd :: rest => some (.here [] rest)
  | .flowEntry :: rest => (flowEntries rest).map .behind
  | _ => none
termination_by (ts.length, 0)

end

/-- The node at the root of a document and the tokens after it. Directives stand before a mark,
after which there may be nothing. -/
def root? (ts : List Token) : Option (Yaml × List Token) :=
  match ts.dropWhile (· = .directive) with
  | .documentStart :: rest =>
    if rest.head?.all Token.endsDocument then some (.empty, rest)
    else (node .block rest).map fun p => (p.value, p.rest)
  | _ =>
    if ts.isEmpty then some (.empty, [])
    else (node .block ts).map fun p => (p.value, p.rest)

def ofTokens? (ts : List Token) : Option Yaml := do
  let (root, rest) ← root? ts
  if rest.all (· = .documentEnd) then some root else none

def parse? (text : String) : Option Yaml := do ofTokens? (← Token.scan? text)

end Interchange.Yaml
