import SearchComposer.Settings.Basic
import SearchComposer.Text.Blank
import SearchComposer.Text.Numeral
import SearchComposer.Yaml.Reader

/-!
# Settings documents

Settings are written as a YAML mapping. An empty document gives the defaults; keys that are not
known are ignored, and a known key must not occur twice. Quoted scalars are never numbers.
-/

namespace SearchComposer

namespace Yaml

/-- The text of a scalar, plain or not. -/
def text? : Yaml → Option String
  | .scalar _ text => some text
  | _ => none

/-- The natural that digits denote in a base. -/
def digits? (base : Nat) (cs : List Char) : Option Nat := do
  guard (cs ≠ [])
  let values ← cs.mapM hexValue?
  guard (values.all (· < base))
  return values.foldl (fun n d => base * n + d) 0

/-- The natural that a text denotes: decimal without a leading zero, or with the base in front. -/
def magnitude? : List Char → Option Nat
  | '0' :: 'x' :: cs => digits? 16 cs
  | '0' :: 'o' :: cs => digits? 8 cs
  | '0' :: 'b' :: cs => digits? 2 cs
  | '0' :: _ :: _ => none
  | cs => digits? 10 cs

/-- The integer that a plain scalar denotes; a minus sign makes no natural. -/
def integer? (signed : Bool) : Yaml → Option Int
  | .scalar true text =>
    match text.toList with
    | '+' :: cs => (magnitude? cs).map Int.ofNat
    | '-' :: cs => if signed then (magnitude? cs).map fun n => -(n : Int) else none
    | cs => (magnitude? cs).map Int.ofNat
  | _ => none

/-- The plain scalars that stand for nothing. -/
def nullTexts : List String := ["", "~", "null", "Null", "NULL"]

/-- Whether a node stands for nothing. -/
def isNull : Yaml → Bool
  | .scalar true text => nullTexts.contains text
  | _ => false

end Yaml

/-- Why settings cannot be read. -/
inductive SettingsError where
  /-- There is no file, or it is no text. -/
  | unreadable
  /-- The text is no settings document. -/
  | malformed
  deriving DecidableEq, Repr

namespace Settings

/-- Reads a page size. -/
def pageSizeOf? (node : Yaml) : Option UInt64 := do
  (Json.ofInt (← node.integer? false)).word?

/-- Reads a list of fields, which may be missing. -/
def fieldsOf? : Yaml → Option (List String)
  | .list items => items.mapM (·.text?)
  | node => if node.isMissing then some [] else none

/-- Reads an offset in minutes, which may be null. -/
def offsetOf? (node : Yaml) : Option (Option Int32) :=
  if node.isNull then some none else (node.integer? true).bind fun n => (int32? n).map some

/-- The settings after one of them was read. -/
def read? (s : Settings) (key : String) (node : Yaml) : Option Settings :=
  if key = "page_size" then (pageSizeOf? node).map fun n => { s with pageSize := n }
  else if key = "sort_direction" then
    (node.text?.bind Direction.ofName?).map fun d => { s with direction := d }
  else if key = "space_field" then node.text?.map fun f => { s with spaceField := f }
  else if key = "any_property_fields" then
    (fieldsOf? node).map fun fs => { s with anyPropertyFields := fs }
  else if key = "utc_offset_minutes" then
    (offsetOf? node).map fun n => { s with utcOffset? := n }
  else some s

/-- The settings after all entries of a mapping were read. -/
def readAll? (s : Settings) (entries : List (String × Yaml)) : Option Settings :=
  entries.foldlM (fun s e => s.read? e.1 e.2) s

/-- The settings that a node gives. -/
def ofYaml? : Yaml → Option Settings
  | .mapping entries => do
    let entries ← entries.mapM fun (key, node) => do return (← key.text?, node)
    guard (((entries.map (·.1)).filter keys.contains).Nodup)
    default.readAll? entries
  | node => if node.isMissing then some default else none

/-- Reads a settings document. -/
def ofText (text : String) : Except SettingsError Settings :=
  if Text.trim text = "" then .ok default
  else
    match (Yaml.read? text).bind ofYaml? with
    | some s => .ok s.withPages
    | none => .error .malformed

/-- Reads the contents of a settings file, if there is one. -/
def ofFile (contents? : Option ByteArray) : Except SettingsError Settings :=
  match contents?.bind fun bytes => String.fromUTF8? bytes with
  | some text => ofText text
  | none => .error .unreadable

end Settings

end SearchComposer
