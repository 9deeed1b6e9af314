import SearchComposer.Yaml.Cursor

/-!
# Scalars

A scalar may go over several lines. The first of the line breaks in a row stands for a blank, or for
nothing if there are more of them, and each further one for itself; separators always stand for
themselves. Blanks around line breaks do not count. A plain scalar ends before a colon or a
comment that is set off by a blank, before the signs of flow style where that is in use, and in
block style before a line that is not indented far enough.
-/

namespace SearchComposer.Yaml

/-- What was read since the last character that counts. -/
inductive Pending where
  /-- Nothing. -/
  | none
  /-- Blanks, last first. -/
  | spaces (seen : List Char)
  /-- Line breaks: the first, unless it is escaped and does not count, and the further ones, last
  first. -/
  | breaks (first : Option Char) (further : List Char)

namespace Pending

/-- The characters that pending blanks and breaks stand for, last first. -/
def joined : Pending → List Char
  | none => []
  | spaces seen => seen
  | breaks first further =>
    match first with
    | .none => further
    | some c => if c = '\n' then (if further.isEmpty then [' '] else further) else further ++ [c]

/-- After a blank. -/
def space (c : Char) : Pending → Pending
  | none => .spaces [c]
  | spaces seen => .spaces (c :: seen)
  | breaks first further => .breaks first further

/-- After a line break. -/
def newline (c : Char) : Pending → Pending
  | breaks first further => .breaks first (c :: further)
  | _ => .breaks (some c) []

/-- Whether there was a line break. -/
def isBroken : Pending → Bool
  | breaks .. => true
  | _ => false

end Pending

/-! ## Plain scalars -/

/-- The signs of flow style. -/
def isFlowSign (c : Char) : Bool :=
  c == ',' || c == '[' || c == ']' || c == '\x7b' || c == '\x7d'

/-- The characters that no plain scalar starts with, those aside that it may start with if no blank
follows. -/
def indicators : List Char :=
  [',', '[', ']', '\x7b', '\x7d', '#', '&', '*', '!', '|', '>', '\'', '"', '%', '@', '\x60']

/-- Whether a plain scalar can start with a text. -/
def startsPlain (flow : Bool) : List Char → Bool
  | [] => false
  | c :: rest =>
    if isSpace c || isBreak c || indicators.contains c then false
    else if c = '-' then !startsBlank rest
    else if c = '?' ∨ c = ':' then !flow && !startsBlank rest
    else true

/-- Reads a plain scalar from a position in it. `inside` says whether the last character was no
blank, and `seen` holds what was read, last first. Before column `indent`, no tab can stand in a
further line, and in block style no such line can go on there. -/
def plainFrom (flow : Bool) (indent : Nat) (inside : Bool) (pending : Pending) (seen : List Char) :
    List Char → (line column : Nat) → Option (List Char × Cursor)
  | [], line, column => some (seen, ⟨[], line, column, pending.isBroken⟩)
  | c :: rest, line, column =>
    let stop := some (seen, (⟨c :: rest, line, column, pending.isBroken⟩ : Cursor))
    if isBreak c then plainFrom flow indent false (pending.newline c) seen rest (line + 1) 0
    else if isSpace c then
      if pending.isBroken && c == '\t' && decide (column < indent) then none
      else plainFrom flow indent false (pending.space c) seen rest line (column + 1)
    else if !inside && (isMarker column (c :: rest) || c == '#' ||
        (pending.isBroken && !flow && decide (column < indent))) then stop
    else if flow && c == ':' && (rest.head?.any fun d => isFlowSign d || d == '?') then none
    else if c = ':' ∧ startsBlank rest then stop
    else if flow && isFlowSign c then stop
    else plainFrom flow indent true .none (c :: (pending.joined ++ seen)) rest line (column + 1)

/-- Reads a plain scalar. -/
def plain? (flow : Bool) (indent : Nat) (c : Cursor) : Option (List Char × Cursor) :=
  if startsPlain flow c.rest then
    (plainFrom flow indent false .none [] c.rest c.line c.column).map fun (seen, c) =>
      (seen.reverse, c)
  else none

/-! ## Quoted scalars -/

/-- The character that an escape of one letter stands for. -/
def escaped? (c : Char) : Option Char :=
  [('0', '\x00'), ('a', '\x07'), ('b', '\x08'), ('t', '\t'), ('\t', '\t'), ('n', '\n'),
    ('v', '\x0b'), ('f', '\x0c'), ('r', '\r'), ('e', '\x1b'), (' ', ' '), ('"', '"'), ('/', '/'),
    ('\\', '\\'), ('N', '\x85'), ('_', '\xa0'), ('L', '\u2028'), ('P', '\u2029')].lookup c

/-- The number of hexadecimal digits after the letter of an escape. -/
def digitCount? (c : Char) : Option Nat :=
  [('x', 2), ('u', 4), ('U', 8)].lookup c

/-- The value of a hexadecimal digit. -/
def hexValue? (c : Char) : Option Nat :=
  if '0' ≤ c ∧ c ≤ '9' then some (c.toNat - '0'.toNat)
  else if 'a' ≤ c ∧ c ≤ 'f' then some (c.toNat - 'a'.toNat + 10)
  else if 'A' ≤ c ∧ c ≤ 'F' then some (c.toNat - 'A'.toNat + 10)
  else none

/-- The character with a number, if there is one. -/
def charOf? (n : Nat) : Option Char :=
  if n.isValidChar then some (Char.ofNat n) else none

/-- What a quoted scalar is read in. -/
inductive Inside where
  /-- In its text. -/
  | text
  /-- After a quote in single quotes: it ends the scalar unless it is doubled. -/
  | quote
  /-- After a backslash in double quotes. -/
  | escape
  /-- In the digits of an escape, of which some are left. -/
  | digits (left value : Nat)

/-- Reads a quoted scalar from a position in it. -/
def quotedFrom (double : Bool) (inside : Inside) (pending : Pending) (seen : List Char) :
    List Char → (line column : Nat) → Option (List Char × Cursor)
  | [], line, column =>
    match inside with
    | .quote => some (seen, ⟨[], line, column, false⟩)
    | _ => none
  | c :: rest, line, column =>
    match inside with
    | .quote =>
      if c = '\'' then quotedFrom double .text .none (c :: seen) rest line (column + 1)
      else some (seen, ⟨c :: rest, line, column, false⟩)
    | .escape =>
      if isBreak c then quotedFrom double .text (.breaks .none []) seen rest (line + 1) 0
      else
        match escaped? c, digitCount? c with
        | some d, _ => quotedFrom double .text .none (d :: seen) rest line (column + 1)
        | none, some count =>
          quotedFrom double (.digits count 0) .none seen rest line (column + 1)
        | none, none => none
    | .digits left value =>
      match hexValue? c with
      | none => none
      | some digit =>
        let value := 16 * value + digit
        if 1 < left then
          quotedFrom double (.digits (left - 1) value) .none seen rest line (column + 1)
        else
          match charOf? value with
          | some d => quotedFrom double .text .none (d :: seen) rest line (column + 1)
          | none => none
    | .text =>
      if isMarker column (c :: rest) then none
      else if isBreak c then quotedFrom double .text (pending.newline c) seen rest (line + 1) 0
      else if isSpace c then
        quotedFrom double .text (pending.space c) seen rest line (column + 1)
      else
        let seen := pending.joined ++ seen
        if double && c == '"' then some (seen, ⟨rest, line, column + 1, false⟩)
        else if double && c == '\\' then
          quotedFrom double .escape .none seen rest line (column + 1)
        else if !double && c == '\'' then
          quotedFrom double .quote .none seen rest line (column + 1)
        else quotedFrom double .text .none (c :: seen) rest line (column + 1)

/-- Reads a quoted scalar, from the position after its first quote. -/
def quoted? (double : Bool) (c : Cursor) : Option (List Char × Cursor) :=
  (quotedFrom double .text .none [] c.rest c.line c.column).map fun (seen, c) => (seen.reverse, c)

end SearchComposer.Yaml
