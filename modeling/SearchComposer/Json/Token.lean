import SearchComposer.Json.Basic
import SearchComposer.Json.Literal

/-!
# Tokens of JSON

The text is read character by character by a machine that collects the tokens read so far. Outside
of texts, characters other than blanks and punctuation gather to words: a word is `null`, a truth
value or a number, and ends before the next blank, punctuation or quote.
-/

namespace SearchComposer.Json

/-- A token. -/
inductive Token where
  /-- The bracket `[`. -/
  | openList
  /-- The bracket `]`. -/
  | closeList
  /-- The bracket that opens an object. -/
  | openObject
  /-- The bracket that closes an object. -/
  | closeObject
  /-- The sign `:`. -/
  | colon
  /-- The sign `,`. -/
  | comma
  /-- A value that is a single token: `null`, a truth value, a number or a text. -/
  | atom (value : Json)

namespace Token

/-- The token that a punctuation character is. -/
def punctuation? (c : Char) : Option Token :=
  if c = '[' then some .openList
  else if c = ']' then some .closeList
  else if c = '\x7b' then some .openObject
  else if c = '\x7d' then some .closeObject
  else if c = ':' then some .colon
  else if c = ',' then some .comma
  else none

/-- The four blanks that may stand between tokens. -/
def isGap (c : Char) : Bool :=
  c == ' ' || c == '\t' || c == '\n' || c == '\r'

/-- The value of a word. -/
def ofWord? (word : List Char) : Option Token :=
  if word = "null".toList then some (.atom .null)
  else if word = "true".toList then some (.atom (.bool true))
  else if word = "false".toList then some (.atom (.bool false))
  else (Literal.read? word).map fun n => .atom (.num n)

/-- What the machine is inside of. Characters that were read are kept last first. -/
inductive Place where
  /-- Between tokens. -/
  | between
  /-- In a word. -/
  | word (seen : List Char)
  /-- In a text. -/
  | text (seen : List Char)
  /-- After a backslash in a text. -/
  | escape (seen : List Char)
  /-- In the four hexadecimal digits of an escape; `high` is the surrogate before it that waits for
  its partner. -/
  | hex (seen : List Char) (high : Option Nat) (count value : Nat)
  /-- After the digits of a high surrogate, before the backslash of its partner. -/
  | afterHigh (seen : List Char) (high : Nat)
  /-- After the backslash of the partner of a high surrogate. -/
  | escapeAfterHigh (seen : List Char) (high : Nat)

/-- The machine: where it is, and the tokens read so far, last first. -/
structure Scan where
  /-- Where the machine is. -/
  place : Place
  /-- The tokens read so far. -/
  tokens : List Token

/-- The character that stands for an escape of one letter. -/
def escaped? (c : Char) : Option Char :=
  if c = '"' then some '"'
  else if c = '\\' then some '\\'
  else if c = '/' then some '/'
  else if c = 'b' then some '\x08'
  else if c = 'f' then some '\x0c'
  else if c = 'n' then some '\n'
  else if c = 'r' then some '\r'
  else if c = 't' then some '\t'
  else none

/-- The value of a hexadecimal digit. -/
def hexValue? (c : Char) : Option Nat :=
  if '0' ≤ c ∧ c ≤ '9' then some (c.toNat - '0'.toNat)
  else if 'a' ≤ c ∧ c ≤ 'f' then some (c.toNat - 'a'.toNat + 10)
  else if 'A' ≤ c ∧ c ≤ 'F' then some (c.toNat - 'A'.toNat + 10)
  else none

/-- Where the machine is after the four digits of an escape: a low surrogate is only allowed after a
high one, and a high one only before a low one. -/
def afterHex? (seen : List Char) (high : Option Nat) (value : Nat) : Option Place :=
  let isLow := 0xDC00 ≤ value && value ≤ 0xDFFF
  let isHigh := 0xD800 ≤ value && value ≤ 0xDBFF
  match high with
  | none =>
    if isHigh then some (.afterHigh seen value)
    else if isLow then none
    else some (.text (Char.ofNat value :: seen))
  | some high =>
    if isLow then
      some (.text (Char.ofNat (0x10000 + 0x400 * (high - 0xD800) + (value - 0xDC00)) :: seen))
    else none

/-- Reads a character between tokens. -/
def stepBetween? (tokens : List Token) (c : Char) : Scan :=
  if isGap c then ⟨.between, tokens⟩
  else if c = '"' then ⟨.text [], tokens⟩
  else
    match punctuation? c with
    | some token => ⟨.between, token :: tokens⟩
    | none => ⟨.word [c], tokens⟩

/-- Reads a character. -/
def step? (s : Scan) (c : Char) : Option Scan :=
  match s.place with
  | .between => some (stepBetween? s.tokens c)
  | .word seen =>
    if isGap c || c == '"' || (punctuation? c).isSome then
      (ofWord? seen.reverse).map fun token => stepBetween? (token :: s.tokens) c
    else some { s with place := .word (c :: seen) }
  | .text seen =>
    if c = '"' then some ⟨.between, .atom (.str (String.ofList seen.reverse)) :: s.tokens⟩
    else if c = '\\' then some { s with place := .escape seen }
    else if c.toNat < 0x20 then none
    else some { s with place := .text (c :: seen) }
  | .escape seen =>
    if c = 'u' then some { s with place := .hex seen none 0 0 }
    else (escaped? c).map fun d => { s with place := .text (d :: seen) }
  | .hex seen high count value => do
    let digit ← hexValue? c
    let value := 16 * value + digit
    if count < 3 then return { s with place := .hex seen high (count + 1) value }
    else return { s with place := ← afterHex? seen high value }
  | .afterHigh seen high =>
    if c = '\\' then some { s with place := .escapeAfterHigh seen high } else none
  | .escapeAfterHigh seen high =>
    if c = 'u' then some { s with place := .hex seen (some high) 0 0 } else none

/-- The tokens at the end of the text: a text must not be left open. -/
def finish? (s : Scan) : Option (List Token) :=
  match s.place with
  | .between => some s.tokens.reverse
  | .word seen => (ofWord? seen.reverse).map fun token => (token :: s.tokens).reverse
  | _ => none

/-- The tokens of a text; nothing if some part of it is no token. -/
def scan? (text : String) : Option (List Token) := do
  finish? (← text.toList.foldlM step? ⟨.between, []⟩)

end Token

end SearchComposer.Json
