import SearchComposer.Outline.Walk
import SearchComposer.Schema.Reserved

/-!
# Hits

The answer to a request holds the documents that were found. Parts that are missing or of another
kind than expected are left out; a missing total is the number of documents. The shape of the hits
is the union of the shapes of their sources, in which lists are looked through.
-/

namespace SearchComposer

/-- A document that was found. -/
structure Hit where
  /-- Its id. -/
  id? : Option String
  /-- Its contents. -/
  source? : Option Json
  /-- The name of its file. -/
  fileName? : Option String

/-- The documents that were found, and how many there are in all. -/
structure Hits where
  /-- The documents of the page. -/
  hits : List Hit
  /-- The number of all documents. -/
  total : UInt64

namespace Hit

/-- Reads a hit. -/
def ofJson (j : Json) : Hit :=
  let source? := Json.present? (j.field? "_source")
  { id? := (j.field? "_id").bind Json.str?
    source? := source?
    fileName? := do
      let metadata ← (← source?).field? Reserved.root
      (← metadata.field? Reserved.fileName).str? }

end Hit

namespace Hits

/-- Reads the answer to a request. -/
def ofJson (j : Json) : Hits :=
  let outer? := j.field? "hits"
  let hits := (((outer?.bind (Json.field? "hits")).bind Json.items?).getD []).map Hit.ofJson
  let total? := ((outer?.bind (Json.field? "total")).bind (Json.field? "value")).bind Json.word?
  { hits := hits, total := total?.getD (UInt64.ofNat hits.length) }

mutual

/-- Adds the keys of a value to a shape: lists are looked through, and other values have no keys. -/
def grow (s : Shape) : Json → Shape
  | .arr items => growItems s items
  | .obj entries => growEntries s entries
  | _ => s

/-- Adds the keys of the items of a list. -/
def growItems (s : Shape) : List Json → Shape
  | [] => s
  | j :: rest => growItems (grow s j) rest

/-- Adds the keys of an object, each with the keys of its value below it. -/
def growEntries (s : Shape) : List (String × Json) → Shape
  | [] => s
  | (key, j) :: rest => growEntries (Shape.extend s key fun below => grow below j) rest

end

/-- The shape of the sources. -/
def shape (hs : Hits) : Shape :=
  (hs.hits.filterMap (·.source?)).foldl grow .empty

/-! ## Walks through the sources -/

/-- Lists are looked through, and the values in an object have their keys as names. -/
def view : Shape.View Json where
  parts
    | .arr items => items.map fun j => (none, some j)
    | .obj entries => entries.map fun e => (some e.1, some e.2)
    | _ => []
  exists_size := by
    refine ⟨sizeOf, fun j => ?_⟩
    cases j with
    | arr items =>
      rw [Json.arr.sizeOf_spec, Nat.one_add]
      refine Nat.lt_succ_of_lt (Shape.View.size_map_lt ?_)
      rintro j - _ ⟨⟩
      exact Nat.le_refl _
    | obj entries =>
      rw [Json.obj.sizeOf_spec, Nat.one_add]
      refine Nat.lt_succ_of_lt (Shape.View.size_map_lt ?_)
      rintro ⟨key, j⟩ - _ ⟨⟩
      exact Nat.le_add_left _ _
    | null => exact Nat.one_pos
    | _ => exact Nat.lt_add_right _ Nat.one_pos

/-- The shape of the sources, gathered on a walk through each of them. -/
def gather (hs : Hits) : Shape :=
  (hs.hits.filterMap (·.source?)).foldl view.gather .empty

end Hits

end SearchComposer
