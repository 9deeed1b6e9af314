import SearchComposer.Yaml.Basic

/-!
# Tokens of YAML

What a text says about the nodes in it: the scalars, the signs around them, and where collections in
block style start and end, which the columns of the text say.
-/

namespace SearchComposer.Yaml

/-- A token. -/
inductive Token where
  /-- A scalar, which is plain or in quotes. -/
  | scalar (isPlain : Bool) (text : String)
  /-- The bracket `[`. -/
  | openList
  /-- The bracket `]`. -/
  | closeList
  /-- The bracket that opens a mapping in flow style. -/
  | openMapping
  /-- The bracket that closes a mapping in flow style. -/
  | closeMapping
  /-- The sign `,`. -/
  | comma
  /-- The sign `-` before an item of a list in block style. -/
  | item
  /-- The start of an entry: the sign `?`, or the place of a key that has none. -/
  | key
  /-- The sign `:` before the value of an entry. -/
  | value
  /-- The start of a list in block style. -/
  | blockList
  /-- The start of a mapping in block style. -/
  | blockMapping
  /-- The end of a list or a mapping in block style. -/
  | blockEnd
  /-- The marker that starts a document. -/
  | startDocument
  /-- The marker that ends a document. -/
  | endDocument

end SearchComposer.Yaml
