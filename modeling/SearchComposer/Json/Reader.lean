import SearchComposer.Json.Token

/-!
# Reading JSON

A machine reads the tokens in order. It keeps the lists and objects that are open, innermost first,
and what may come next. Lists and objects are nested in each other at most 127 levels deep.
-/

namespace SearchComposer.Json

/-- How deep lists and objects may be nested. -/
def maxDepth : Nat := 127

/-- A list or an object that is being read. -/
inductive Frame where
  /-- A list, with the items read so far, last first. -/
  | list (items : List Json)
  /-- An object before the value of a key, with the entries read so far. -/
  | entry (entries : Entries) (key : String)

/-- What may come next. -/
inductive Goal where
  /-- A value. -/
  | value
  /-- The first item of a list, or its end. -/
  | firstItem
  /-- The first key of an object, or its end. -/
  | firstKey
  /-- A further key of an object. -/
  | key (entries : Entries)
  /-- The colon after a key. -/
  | colon (entries : Entries) (key : String)
  /-- After a value in a list or an object: a comma or its end. -/
  | next (value : Json)

/-- The machine: what may come next, and the lists and objects that are open, innermost first. -/
structure Reading where
  /-- What may come next. -/
  goal : Goal
  /-- What is open. -/
  frames : List Frame

namespace Reading

/-- Opens a list or an object, unless it would be nested too deep. The frame of an object comes with
its first key. -/
def open? (r : Reading) : Token → Option Reading
  | .openList =>
    if r.frames.length < maxDepth then some ⟨.firstItem, .list [] :: r.frames⟩ else none
  | .openObject => if r.frames.length < maxDepth then some ⟨.firstKey, r.frames⟩ else none
  | _ => none

/-- Reads the first token of a value. -/
def value? (r : Reading) : Token → Option Reading
  | .atom j => some { r with goal := .next j }
  | token => r.open? token

/-- Reads the token after a value. -/
def next? (value : Json) (frames : List Frame) : Token → Option Reading
  | .comma =>
    match frames with
    | .list items :: outer => some ⟨.value, .list (value :: items) :: outer⟩
    | .entry entries key :: outer => some ⟨.key (entries.insert key value), outer⟩
    | [] => none
  | .closeList =>
    match frames with
    | .list items :: outer => some ⟨.next (.arr (value :: items).reverse), outer⟩
    | _ => none
  | .closeObject =>
    match frames with
    | .entry entries key :: outer => some ⟨.next (.obj (entries.insert key value)), outer⟩
    | _ => none
  | _ => none

/-- Reads a token. -/
def step? (r : Reading) (token : Token) : Option Reading :=
  match r.goal with
  | .value => r.value? token
  | .firstItem =>
    match token, r.frames with
    | .closeList, .list [] :: outer => some ⟨.next (.arr []), outer⟩
    | token, _ => r.value? token
  | .firstKey =>
    match token with
    | .closeObject => some { r with goal := .next (.obj []) }
    | .atom (.str key) => some { r with goal := .colon [] key }
    | _ => none
  | .key entries =>
    match token with
    | .atom (.str key) => some { r with goal := .colon entries key }
    | _ => none
  | .colon entries key =>
    match token with
    | .colon => some ⟨.value, .entry entries key :: r.frames⟩
    | _ => none
  | .next value => next? value r.frames token

end Reading

/-- Reads a JSON text; nothing if it is malformed. -/
def read? (text : String) : Option Json := do
  let tokens ← Token.scan? text
  match ← tokens.foldlM Reading.step? ⟨.value, []⟩ with
  | ⟨.next value, []⟩ => some value
  | _ => none

end SearchComposer.Json
