import Interchange.Json.Text
import Interchange.Json.Value

namespace Interchange.Json

def lineAt (depth : Nat) : String := "\n" ++ String.ofList (List.replicate (2 * depth) ' ')

/-- Items between two brackets, each on a line of its own; without items the brackets alone. -/
def bracketed (opening closing : String) (depth : Nat) (items : List String) : String :=
  if items.isEmpty then opening ++ closing
  else
    opening ++ ",".intercalate (items.map (lineAt (depth + 1) ++ ·)) ++ lineAt depth ++ closing

mutual

def writeAt (depth : Nat) : Json → String
  | unreadable | null => "null"
  | bool value => if value then "true" else "false"
  | number literal => literal
  | string text => quote text
  | array elements => bracketed "[" "]" depth (writeElements (depth + 1) elements)
  | object entries => bracketed "\x7b" "\x7d" depth (writeEntries (depth + 1) entries)

def writeElements (depth : Nat) : List Json → List String
  | [] => []
  | e :: es => writeAt depth e :: writeElements depth es

def writeEntries (depth : Nat) : List (String × Json) → List String
  | [] => []
  | e :: es => writeEntry depth e :: writeEntries depth es

def writeEntry (depth : Nat) : String × Json → String
  | (key, value) => quote key ++ ": " ++ writeAt depth value

end

def write (j : Json) : String := j.writeAt 0

end Interchange.Json
