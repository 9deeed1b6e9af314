import SearchComposer.Number.Binary64
import SearchComposer.Number.Basic
import SearchComposer.Text.Numeral

/-!
# Number literals of JSON

A literal is an optional minus sign, digits without a leading zero, an optional fraction and an
optional exponent. Digits are collected into a word of 64 bits for as long as they fit; the digits
that do not fit only count as a power of ten. An integer that fits its word stays an integer. Any
other number is the collected word, rounded to 64 bits, and then multiplied or divided by a power
of ten, which rounds a second time: it may miss the nearest number by a unit or two.
-/

namespace SearchComposer.Json.Literal

open Number (Binary64)
open Text (isDigit digitValue)

/-- One more than the greatest word. -/
def wordBound : Nat := UInt64.size

/-- The greatest exponent that is told apart from greater ones. -/
def greatestExponent : Nat := 2147483647

/-- Digits collected from a literal. -/
structure Collected where
  /-- The digits that fit a word. -/
  word : Nat
  /-- The power of ten that the word is to be multiplied by. -/
  exponent : Int
  /-- Whether some digit did not fit. -/
  full : Bool
  deriving DecidableEq, Repr

/-- Takes in a digit before the point. -/
def Collected.takeWhole (c : Collected) (digit : Char) : Collected :=
  let word := 10 * c.word + digitValue digit
  if c.full || wordBound ≤ word then { c with exponent := c.exponent + 1, full := true }
  else { c with word := word }

/-- Takes in a digit after the point. -/
def Collected.takeFraction (c : Collected) (digit : Char) : Collected :=
  let word := 10 * c.word + digitValue digit
  if c.full || wordBound ≤ word then { c with full := true }
  else { c with word := word, exponent := c.exponent - 1 }

/-- The greatest power of ten that one multiplication or division uses. -/
def greatestStep : Nat := 308

/-- The word times a power of ten, in at most two rounded steps; nothing if it is too great for 64
bits. -/
def scaled? (word : Nat) (exponent : Int) : Option Binary64 :=
  let x := Binary64.ofNat word
  if x.isZero then some x
  else if greatestStep < exponent then none
  else if 0 ≤ exponent then
    let y := x.mul (.powerOfTen exponent.toNat)
    if y.isFinite then some y else none
  else if -greatestStep ≤ exponent then some (x.div (.powerOfTen (-exponent).toNat))
  else if -(2 * greatestStep) ≤ exponent then
    some ((x.div (.powerOfTen greatestStep)).div
      (.powerOfTen (-exponent - greatestStep).toNat))
  else some (.zero false)

/-- The number with a sign. -/
def signed (negative : Bool) (x : Binary64) : Number :=
  .float (if negative then x.neg else x)

/-- The number of collected digits and an exponent as written. An exponent beyond all limits makes
a positive power an error and a negative one zero. -/
def finish? (negative : Bool) (c : Collected) (exponent : List Char) : Option Number :=
  let (below, digits) :=
    match exponent with
    | '+' :: ds => (false, ds)
    | '-' :: ds => (true, ds)
    | ds => (false, ds)
  (Text.value? digits).bind fun e =>
    if greatestExponent < e then
      if c.word ≠ 0 ∧ !below then none else some (signed negative (.zero false))
    else
      (scaled? c.word (c.exponent + if below then -(e : Int) else e)).map (signed negative)

/-- An integer: it stays one if it fits its word, and a negative zero does not. -/
def whole? (negative : Bool) (c : Collected) : Option Number :=
  if c.full then (scaled? c.word c.exponent).map (signed negative)
  else if !negative then some (.int c.word)
  else if c.word = 0 ∨ wordBound / 2 < c.word then
    some (.float (Binary64.ofNat c.word).neg)
  else some (.int (-(c.word : Int)))

/-- Reads a literal. -/
def read? (text : List Char) : Option Number :=
  let (negative, cs) :=
    match text with
    | '-' :: rest => (true, rest)
    | cs => (false, cs)
  let whole := cs.takeWhile isDigit
  if whole.isEmpty ∨ (whole.head? = some '0' ∧ 1 < whole.length) then none
  else
    let collected := whole.foldl Collected.takeWhole ⟨0, 0, false⟩
    match cs.dropWhile isDigit with
    | [] => whole? negative collected
    | '.' :: rest =>
      let fraction := rest.takeWhile isDigit
      if fraction.isEmpty then none
      else
        -- a digit that did not fit before the point does not keep later ones out
        let collected := fraction.foldl Collected.takeFraction { collected with full := false }
        match rest.dropWhile isDigit with
        | [] => (scaled? collected.word collected.exponent).map (signed negative)
        | e :: ds => if e = 'e' ∨ e = 'E' then finish? negative collected ds else none
    | e :: ds => if e = 'e' ∨ e = 'E' then finish? negative collected ds else none

end SearchComposer.Json.Literal
