/-!
# YAML nodes

The part of YAML that settings are written in: mappings and lists in block and flow style, and plain
and quoted scalars. A scalar keeps its text and whether it is plain, since only plain scalars can
stand for anything but a text. A missing value is a plain scalar without text.
-/

namespace SearchComposer

/-- A node of a YAML document. -/
inductive Yaml where
  /-- A scalar, which is plain or in quotes. -/
  | scalar (isPlain : Bool) (text : String)
  /-- A list. -/
  | list (items : List Yaml)
  /-- A mapping, as its keys and values in order. -/
  | mapping (entries : List (Yaml × Yaml))
  deriving Repr

namespace Yaml

/-- The node where a value is missing. -/
def missing : Yaml := .scalar true ""

/-- Whether a node is a missing value. -/
def isMissing : Yaml → Bool
  | .scalar true text => text == ""
  | _ => false

end Yaml

end SearchComposer
