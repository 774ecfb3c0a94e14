import Thumb.Json.Basic

namespace Thumb.Json

mutual

/-- The document without any space. -/
def compact : Json → String
  | .null => "null"
  | .bool value => if value then "true" else "false"
  | .number written => written
  | .text written => "\"" ++ written ++ "\""
  | .array items => "[" ++ ",".intercalate (compactItems items) ++ "]"
  | .object members => "\x7b" ++ ",".intercalate (compactMembers members) ++ "\x7d"

def compactItems : List Json → List String
  | [] => []
  | item :: items => compact item :: compactItems items

def compactMembers : List (String × Json) → List String
  | [] => []
  | (name, value) :: members =>
    ("\"" ++ name ++ "\":" ++ compact value) :: compactMembers members

end

/-- A line break and the indentation of the given level. -/
def newline (level : Nat) : String :=
  "\n" ++ String.ofList (List.replicate (2 * level) ' ')

/-- Parts between brackets, each on a line of its own. -/
def block (openBracket closeBracket : String) (level : Nat) (parts : List String) : String :=
  if parts.isEmpty then openBracket ++ closeBracket
  else
    openBracket ++ newline (level + 1) ++ ("," ++ newline (level + 1)).intercalate parts ++
      newline level ++ closeBracket

mutual

/-- The document with every item and member on a line of its own, indented by two spaces a level. -/
def pretty (level : Nat) : Json → String
  | .array items => block "[" "]" level (prettyItems (level + 1) items)
  | .object members => block "\x7b" "\x7d" level (prettyMembers (level + 1) members)
  | leaf => compact leaf

def prettyItems (level : Nat) : List Json → List String
  | [] => []
  | item :: items => pretty level item :: prettyItems level items

def prettyMembers (level : Nat) : List (String × Json) → List String
  | [] => []
  | (name, value) :: members =>
    ("\"" ++ name ++ "\": " ++ pretty level value) :: prettyMembers level members

end

end Thumb.Json
