import SearchComposer.Yaml.Scalar
import SearchComposer.Yaml.Token

/-!
# Reading the tokens of a YAML text

In block style the column in which a collection starts holds it together: its entries start in that
column, and what starts further to the left ends it. A mapping shows only at the colon after its
first key. So the place where a key may have started is remembered, and the tokens that belong there
are put in when the colon comes. A key and its colon are in one line, and the colon starts at most
1024 bytes after the key. Within brackets the columns do not count. The brackets are not matched
here: one that closes ends the innermost level of flow style, if there is one.
-/

namespace SearchComposer.Yaml

/-- How many bytes the colon after a key can be from the start of the key. -/
def maxKeyLength : Nat := 1024

/-- A place where a key may have started. -/
structure Candidate where
  /-- The position. -/
  start : Cursor
  /-- The number of tokens before it. -/
  count : Nat
  /-- Whether nothing but a key can start there, as it is in the column of a mapping in block
  style. -/
  isRequired : Bool

/-- Whether a colon can still end the key that may have started. -/
def Candidate.reaches (key : Candidate) (c : Cursor) : Bool :=
  c.line == key.start.line && decide (key.start.bytesTo c ≤ maxKeyLength)

/-- What is known at a position in a text. -/
structure Lexer where
  /-- The position. -/
  cursor : Cursor
  /-- The tokens before it. -/
  tokens : Array Token
  /-- The columns of the collections in block style around it, the innermost first. -/
  columns : List Nat
  /-- Where a key may have started within the same brackets, if the text since then can be one. -/
  key? : Option Candidate
  /-- The same for what is around each of the brackets, the innermost first. -/
  outer : List (Option Candidate)

namespace Lexer

/-- The start of a text. -/
def start (text : List Char) : Lexer := ⟨.start text, #[], [], none, []⟩

/-- Whether the position is within brackets. -/
def isFlow (l : Lexer) : Bool := !l.outer.isEmpty

/-- Adds the token that the next characters are, some in number. -/
def push (l : Lexer) (token : Token) (count : Nat) (canStart : Bool) : Lexer :=
  { l with tokens := l.tokens.push token, cursor := l.cursor.advance count canStart }

/-! ## Keys -/

/-- Forgets where a key may have started. It fails if there has to be one. -/
def dropKey? (l : Lexer) : Option Lexer :=
  if l.key?.any Candidate.isRequired then none else some { l with key? := none }

/-- Remembers that a key may start at the position. -/
def markKey? (l : Lexer) : Option Lexer := do
  if l.cursor.canStart then
    let l ← l.dropKey?
    let isRequired := !l.isFlow && l.columns.head? == some l.cursor.column
    return { l with key? := some ⟨l.cursor, l.tokens.size, isRequired⟩ }
  else return l

/-! ## Block style -/

/-- Starts a collection in block style in a column that is to the right of those around it, before
the tokens from a position on. -/
def enter (l : Lexer) (column position : Nat) (token : Token) : Lexer :=
  if l.isFlow || l.columns.head?.any (column ≤ ·) then l
  else { l with columns := column :: l.columns,
                tokens := l.tokens.insertIdxIfInBounds position token }

/-- Ends the innermost collections in block style as long as a condition holds of their columns. -/
def leave (l : Lexer) (isOver : Nat → Bool) : Lexer :=
  if l.isFlow then l
  else { l with columns := l.columns.dropWhile isOver,
                tokens := l.tokens ++ (l.columns.takeWhile isOver).map fun _ => Token.blockEnd }

/-- Ends all that is in block style, at the end of a document. -/
def leaveAll? (l : Lexer) : Option Lexer := (l.leave fun _ => true).dropKey?

/-! ## The kinds of tokens -/

/-- A marker of documents. -/
def marker? (l : Lexer) (token : Token) : Option Lexer :=
  l.leaveAll?.map (·.push token 3 false)

/-- A bracket that opens. What it starts may be a key. -/
def openBracket? (l : Lexer) (token : Token) : Option Lexer := do
  let l ← l.markKey?
  return { l with key? := none, outer := l.key? :: l.outer }.push token 1 true

/-- A bracket that closes. -/
def closeBracket? (l : Lexer) (token : Token) : Option Lexer := do
  let l ← l.dropKey?
  match l.outer with
  | [] => return l.push token 1 false
  | key? :: outer => return { l with key?, outer }.push token 1 false

/-- A sign of an item, a key or a value. In block style it starts a collection if it is to the right
of those around it. -/
def sign? (l : Lexer) (collection token : Token) (canStart : Bool) : Option Lexer := do
  guard (l.isFlow || l.cursor.canStart)
  let l ← (l.enter l.cursor.column l.tokens.size collection).dropKey?
  return l.push token 1 canStart

/-- The colon before a value. It makes a key of what may have been one. -/
def value? (l : Lexer) : Option Lexer :=
  match l.key?.filter (·.reaches l.cursor) with
  | none => l.sign? .blockMapping .value !l.isFlow
  | some key =>
    let l := { l with key? := none, tokens := l.tokens.insertIdxIfInBounds key.count .key }
    some ((l.enter key.start.column key.count .blockMapping).push .value 1 false)

/-- A scalar, which may be a key. `read?` is its text and the position after it. -/
def scalar? (l : Lexer) (isPlain : Bool) (read? : Option (List Char × Cursor)) : Option Lexer := do
  let l ← l.markKey?
  let (text, cursor) ← read?
  return { l with cursor, tokens := l.tokens.push (.scalar isPlain (String.ofList text)) }

/-- A plain scalar. In block style its further lines are indented to more than what is around it. -/
def plainScalar? (l : Lexer) : Option Lexer :=
  l.scalar? true (plain? l.isFlow ((l.columns.head?.map (· + 1)).getD 0) l.cursor)

/-- A quoted scalar. -/
def quotedScalar? (l : Lexer) (double : Bool) : Option Lexer :=
  l.scalar? false (quoted? double (l.cursor.advance 1 false))

/-- The token that starts with a character. -/
def token? (l : Lexer) (c : Char) (rest : List Char) : Option Lexer :=
  if l.cursor.column = 0 ∧ startsDocument (c :: rest) then l.marker? .startDocument
  else if l.cursor.column = 0 ∧ endsDocument (c :: rest) then l.marker? .endDocument
  else
    match c with
    | '[' => l.openBracket? .openList
    | ']' => l.closeBracket? .closeList
    | '\x7b' => l.openBracket? .openMapping
    | '\x7d' => l.closeBracket? .closeMapping
    | ',' => l.dropKey?.map (·.push .comma 1 true)
    | '"' => l.quotedScalar? true
    | '\'' => l.quotedScalar? false
    | '-' => if startsBlank rest then l.sign? .blockList .item true else l.plainScalar?
    | '?' =>
      if l.isFlow || startsBlank rest then l.sign? .blockMapping .key !l.isFlow
      else l.plainScalar?
    | ':' => if l.isFlow || startsBlank rest then l.value? else l.plainScalar?
    | _ => l.plainScalar?

/-! ## Texts -/

/-- The tokens of a text, of which no more than `fuel` steps are left. -/
def tokens? (fuel : Nat) (l : Lexer) : Option (List Token) :=
  match fuel with
  | 0 => none
  | fuel + 1 => do
    let cursor ← l.cursor.gap? l.isFlow
    let l := { l with cursor }.leave (cursor.column < ·)
    match cursor.rest with
    | [] => return (← l.leaveAll?).tokens.toList
    | c :: rest => tokens? fuel (← l.token? c rest)

end Lexer

/-- The tokens of a text with unified line breaks; nothing if it is malformed. Each token that is
read takes a character. -/
def Token.listOf? (text : List Char) : Option (List Token) :=
  (Lexer.start text).tokens? (text.length + 1)

end SearchComposer.Yaml
