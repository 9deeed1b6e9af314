import SearchComposer.Yaml.Lexer

/-!
# Reading YAML

The node of a document is read from its tokens; what is left of them is returned with it. A node may
be missing after a sign, and which tokens show that it is depends on the place.

No more than three nested steps of the readers below go to each token that is read, so that three
times the number of tokens bounds theirs; `fuel` counts them down.
-/

namespace SearchComposer.Yaml

/-- A node and the tokens after it. -/
abbrev Read := Option (Yaml × List Token)

/-- A place where a node can stand. -/
inductive Place where
  /-- In block style. -/
  | block
  /-- In an entry of a mapping in block style. A list there can start in the column of the
  mapping. -/
  | entry
  /-- In flow style. -/
  | flow
  deriving DecidableEq

/-- Whether a node before a token is missing. -/
def Token.followsMissing (place : Place) : Token → Bool
  | .key | .value | .blockEnd | .comma | .closeList | .closeMapping => true
  | .item => place != .entry
  | _ => false

/-- What is left after the key of a pair in a list in flow style. If the key is missing, the token
in its place is passed over, even if it is the bracket that closes the list. -/
def afterListKey (start after : List Token) : List Token :=
  match start with
  | .value :: rest | .comma :: rest | .closeList :: rest => rest
  | _ => after

mutual

/-- Reads a node. -/
def node (fuel : Nat) (place : Place) (tokens : List Token) : Read :=
  match fuel with
  | 0 => none
  | fuel + 1 =>
    match tokens with
    | .scalar isPlain text :: rest => some (.scalar isPlain text, rest)
    | .openList :: rest => flowItems fuel [] rest
    | .openMapping :: rest => flowEntries fuel [] rest
    | .blockList :: rest => do
      guard (place ≠ .flow)
      let (items, rest) ← blockItems fuel [] rest
      match rest with
      | .blockEnd :: rest => some (items, rest)
      | _ => none
    | .blockMapping :: rest => do
      guard (place ≠ .flow)
      blockEntries fuel [] rest
    | .item :: _ => do
      guard (place = .entry)
      blockItems fuel [] tokens
    | _ => none

/-- Reads the node after a sign. It may be missing. -/
def nodeOrMissing (fuel : Nat) (place : Place) (tokens : List Token) : Read :=
  match fuel with
  | 0 => none
  | fuel + 1 =>
    if tokens.head?.any (Token.followsMissing place) then some (missing, tokens)
    else node fuel place tokens

/-- Reads the value after a key. It is missing without a colon. -/
def valueOrMissing (fuel : Nat) (place : Place) (tokens : List Token) : Read :=
  match fuel with
  | 0 => none
  | fuel + 1 =>
    match tokens with
    | .value :: rest => nodeOrMissing fuel place rest
    | _ => some (missing, tokens)

/-- Reads the further items of a list in block style. -/
def blockItems (fuel : Nat) (items : List Yaml) (tokens : List Token) : Read :=
  match fuel with
  | 0 => none
  | fuel + 1 =>
    match tokens with
    | .item :: rest => do
      let (item, rest) ← nodeOrMissing fuel .block rest
      blockItems fuel (item :: items) rest
    | _ => some (.list items.reverse, tokens)

/-- Reads the further entries of a mapping in block style. -/
def blockEntries (fuel : Nat) (entries : List (Yaml × Yaml)) (tokens : List Token) : Read :=
  match fuel with
  | 0 => none
  | fuel + 1 =>
    match tokens with
    | .key :: rest => do
      let (key, rest) ← nodeOrMissing fuel .entry rest
      let (value, rest) ← valueOrMissing fuel .entry rest
      blockEntries fuel ((key, value) :: entries) rest
    | .blockEnd :: rest => some (.mapping entries.reverse, rest)
    | _ => none

/-- Reads the further items of a list in flow style. An item may be a single pair. -/
def flowItems (fuel : Nat) (items : List Yaml) (tokens : List Token) : Read :=
  match fuel with
  | 0 => none
  | fuel + 1 =>
    match tokens with
    | .closeList :: rest => some (.list items.reverse, rest)
    | _ => do
      let (item, rest) ←
        match tokens with
        | .key :: start => do
          let (key, after) ← nodeOrMissing fuel .flow start
          let (value, after) ← valueOrMissing fuel .flow (afterListKey start after)
          pure (Yaml.mapping [(key, value)], after)
        | _ => node fuel .flow tokens
      match rest with
      | .comma :: rest => flowItems fuel (item :: items) rest
      | .closeList :: rest => some (.list (item :: items).reverse, rest)
      | _ => none

/-- Reads the further entries of a mapping in flow style. -/
def flowEntries (fuel : Nat) (entries : List (Yaml × Yaml)) (tokens : List Token) : Read :=
  match fuel with
  | 0 => none
  | fuel + 1 =>
    match tokens with
    | .closeMapping :: rest => some (.mapping entries.reverse, rest)
    | _ => do
      let (entry, rest) ←
        match tokens with
        | .key :: start => do
          let (key, after) ← nodeOrMissing fuel .flow start
          let (value, after) ← valueOrMissing fuel .flow after
          pure ((key, value), after)
        | _ => do
          let (key, after) ← node fuel .flow tokens
          pure ((key, missing), after)
      match rest with
      | .comma :: rest => flowEntries fuel (entry :: entries) rest
      | .closeMapping :: rest => some (.mapping (entry :: entries).reverse, rest)
      | _ => none

end

/-! ## Documents -/

/-- Whether a token ends a document. -/
def Token.isEnd : Token → Bool
  | .endDocument => true
  | _ => false

/-- Reads the node of a document, which is missing if there is none. Without the marker that starts
it, a document is not empty unless the text is. -/
def document (fuel : Nat) : List Token → Read
  | [] => some (missing, [])
  | .startDocument :: [] => some (missing, [])
  | .startDocument :: .endDocument :: rest => some (missing, rest)
  | .startDocument :: rest => node fuel .block rest
  | tokens => node fuel .block tokens

/-- Reads a text with a single document; nothing if it is malformed. -/
def read? (text : String) : Option Yaml := do
  let text := unifyBreaks text.toList
  guard (text.all isAllowed)
  let tokens ← Token.listOf? text
  let (node, rest) ← document (3 * tokens.length + 3) tokens
  guard (rest.all Token.isEnd)
  return node

end SearchComposer.Yaml
