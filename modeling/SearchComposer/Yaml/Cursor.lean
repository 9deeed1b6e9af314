/-!
# Positions in a YAML text

The structure of a YAML text depends on the columns in which its parts start. A cursor is a
position: what is left of the text, the line and the column that it is in, and whether a key or an
item can start there. Lines end with a line feed, which the other breaks of ASCII and U+0085 are
replaced by before, or with one of the separators U+2028 and U+2029.
-/

namespace SearchComposer.Yaml

/-- A position in a text. -/
structure Cursor where
  /-- What is left of the text. -/
  rest : List Char
  /-- The line, from 0. -/
  line : Nat
  /-- The column, from 0. -/
  column : Nat
  /-- Whether a key or an item can start here. In block style that is so where nothing but blanks
  and signs stands before it in its line; a bracket that opens and a comma allow it as well. -/
  canStart : Bool

/-- A blank within a line. -/
def isSpace (c : Char) : Bool := c == ' ' || c == '\t'

/-- A line break. -/
def isBreak (c : Char) : Bool := c == '\n' || c == '\u2028' || c == '\u2029'

/-- Whether a character is a mark of the byte order, which can start a line and counts as a blank
there. -/
def isByteOrderMark (column : Nat) (c : Char) : Bool := column == 0 && c == '\ufeff'

/-- Whether a text starts with a blank or a line break, or is at its end. -/
def startsBlank : List Char → Bool
  | [] => true
  | c :: _ => isSpace c || isBreak c

/-- Whether a text starts with the marker that starts a document. -/
def startsDocument : List Char → Bool
  | '-' :: '-' :: '-' :: rest => startsBlank rest
  | _ => false

/-- Whether a text starts with the marker that ends a document. -/
def endsDocument : List Char → Bool
  | '.' :: '.' :: '.' :: rest => startsBlank rest
  | _ => false

/-- Whether a line starts with a marker of documents. -/
def isMarker (column : Nat) (rest : List Char) : Bool :=
  column == 0 && (startsDocument rest || endsDocument rest)

namespace Cursor

/-- The start of a text. -/
def start (text : List Char) : Cursor := ⟨text, 0, 0, true⟩

/-- The position after some characters of the same line. `canStart` says whether a key or an item
can start after them. -/
def advance (c : Cursor) (count : Nat) (canStart : Bool) : Cursor :=
  { c with rest := c.rest.drop count, column := c.column + count, canStart }

/-- The number of bytes from a position to a later one of the same line. -/
def bytesTo (c later : Cursor) : Nat :=
  (String.ofList (c.rest.take (later.column - c.column))).utf8ByteSize

/-- The next position that is neither in blanks nor in a comment; nothing if a tab comes first where
none can stand. `comment` says whether a comment has started. -/
def gapFrom? (flow canStart comment : Bool) : List Char → (line column : Nat) → Option Cursor
  | [], line, column => some ⟨[], line, column, canStart⟩
  | c :: rest, line, column =>
    if isBreak c then gapFrom? flow (canStart || !flow) false rest (line + 1) 0
    else if comment || c == ' ' || isByteOrderMark column c then
      gapFrom? flow canStart comment rest line (column + 1)
    else if c = '\t' then
      if canStart && !flow then none else gapFrom? flow canStart comment rest line (column + 1)
    else if c = '#' then gapFrom? flow canStart true rest line (column + 1)
    else some ⟨c :: rest, line, column, canStart⟩

/-- The next position that is neither in blanks nor in a comment. Nothing starts with a tab, and in
block style no tab can stand before a key or an item in its line. -/
def gap? (c : Cursor) (flow : Bool) : Option Cursor :=
  gapFrom? flow c.canStart false c.rest c.line c.column

end Cursor

/-! ## The characters of a text -/

/-- Whether a character can occur in a text. -/
def isAllowed (c : Char) : Bool :=
  let n := c.toNat
  n == 0x09 || n == 0x0A || n == 0x0D || (0x20 ≤ n && n ≤ 0x7E) || n == 0x85 ||
    (0xA0 ≤ n && n ≤ 0xD7FF) || (0xE000 ≤ n && n ≤ 0xFFFD) || 0x10000 ≤ n

/-- A text with a line feed for each line break. -/
def unifyBreaks : List Char → List Char
  | [] => []
  | '\r' :: '\n' :: rest => '\n' :: unifyBreaks rest
  | c :: rest => (if c = '\r' ∨ c = '\x85' then '\n' else c) :: unifyBreaks rest

end SearchComposer.Yaml
