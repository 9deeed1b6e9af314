import SearchComposer.Json.Basic

/-!
# Writing JSON

The compact text has no blanks. The indented text gives every item and every entry a line of its
own, indented by two blanks a level; a list or an object without contents stays on one line.
-/

namespace SearchComposer.Json

/-- The digit of a number below sixteen, in lower case. -/
def hexDigit (n : Nat) : Char := Nat.digitChar n

/-- A character as it stands in a text: a quote, a backslash and the control characters below
`U+0020` are escaped, all others stand for themselves. -/
def escape (c : Char) : List Char :=
  if c = '"' then "\\\"".toList
  else if c = '\\' then "\\\\".toList
  else if c = '\n' then "\\n".toList
  else if c = '\r' then "\\r".toList
  else if c = '\t' then "\\t".toList
  else if c = '\x08' then "\\b".toList
  else if c = '\x0c' then "\\f".toList
  else if c.toNat < 0x20 then "\\u00".toList ++ [hexDigit (c.toNat / 16), hexDigit (c.toNat % 16)]
  else [c]

/-- A text in quotes. -/
def quote (s : String) : String :=
  "\"" ++ String.ofList (s.toList.flatMap escape) ++ "\""

mutual

/-- The text of a value without blanks. -/
def compact : Json → String
  | .null => "null"
  | .bool b => if b then "true" else "false"
  | .num n => n.text
  | .str s => quote s
  | .arr items => "[" ++ ",".intercalate (compactItems items) ++ "]"
  | .obj entries => "\x7b" ++ ",".intercalate (compactEntries entries) ++ "\x7d"

/-- The texts of the items of a list. -/
def compactItems : List Json → List String
  | [] => []
  | j :: rest => compact j :: compactItems rest

/-- The texts of the entries of an object. -/
def compactEntries : List (String × Json) → List String
  | [] => []
  | (key, j) :: rest => (quote key ++ ":" ++ compact j) :: compactEntries rest

end

/-- The start of a line at a level. -/
def margin (level : Nat) : String :=
  "\n" ++ String.ofList (List.replicate (2 * level) ' ')

/-- Lines between brackets, one level in. -/
def bracketed (opening closing : String) (level : Nat) : List String → String
  | [] => opening ++ closing
  | lines =>
    opening ++ margin (level + 1) ++ ("," ++ margin (level + 1)).intercalate lines ++
      margin level ++ closing

mutual

/-- The indented text of a value at a level. -/
def indented (level : Nat) : Json → String
  | .arr items => bracketed "[" "]" level (indentedItems (level + 1) items)
  | .obj entries => bracketed "\x7b" "\x7d" level (indentedEntries (level + 1) entries)
  | .null => "null"
  | .bool b => if b then "true" else "false"
  | .num n => n.text
  | .str s => quote s

/-- The indented texts of the items of a list. -/
def indentedItems (level : Nat) : List Json → List String
  | [] => []
  | j :: rest => indented level j :: indentedItems level rest

/-- The indented texts of the entries of an object. -/
def indentedEntries (level : Nat) : List (String × Json) → List String
  | [] => []
  | (key, j) :: rest => (quote key ++ ": " ++ indented level j) :: indentedEntries level rest

end

/-- The indented text of a value. -/
def pretty (j : Json) : String := indented 0 j

end SearchComposer.Json
