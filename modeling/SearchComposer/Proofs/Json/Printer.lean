import Mathlib.Data.List.TakeWhile
import Mathlib.Data.Nat.Digits.Defs
import SearchComposer.Json.Printer
import SearchComposer.Proofs.Json.Reader
import SearchComposer.Proofs.Text.Numeral

/-!
# What is written is read back

The compact text of a value gives its tokens in order: a text ends with its quote, and a word before
the next sign. Read in that order the tokens give the value again, unless lists and objects are nested
too deep. Numbers are integers here, of a size that fits a word, and keys of an object are distinct.
-/

namespace SearchComposer.Json

open Text (isDigit digitValue valueFrom value)

/-! ## Integers -/

namespace Literal

theorem head?_toDigits_ne {n : Nat} (hn : 0 < n) : (Nat.toDigits 10 n).head? ≠ some '0' := by
  induction n using Nat.strongRecOn with
  | _ n ih =>
    by_cases hsmall : n < 10
    · have hdigits : ∀ n < 10, 0 < n → some n.digitChar ≠ some '0' := by decide
      rw [Nat.toDigits_of_lt_base hsmall]
      exact hdigits n hsmall hn
    · rw [Nat.toDigits_of_base_le (by decide) (Nat.le_of_not_lt hsmall),
        List.head?_append_of_ne_nil _ Nat.toDigits_ne_nil]
      exact ih (n / 10) (by omega) (by omega)

theorem le_valueFrom (word : Nat) (digits : List Char) : word ≤ valueFrom word digits := by
  induction digits generalizing word with
  | nil => exact Nat.le_refl _
  | cons c digits ih =>
    have hstep : word ≤ 10 * word + digitValue c := by omega
    exact Nat.le_trans hstep (ih _)

/-- Digits of a number that fits a word are all collected into it. -/
theorem foldl_takeWhole {digits : List Char} {word : Nat} (h : valueFrom word digits < wordBound) :
    digits.foldl Collected.takeWhole ⟨word, 0, false⟩ = ⟨valueFrom word digits, 0, false⟩ := by
  induction digits generalizing word with
  | nil => rfl
  | cons c digits ih =>
    have hle : 10 * word + digitValue c ≤ valueFrom word (c :: digits) := le_valueFrom _ digits
    have hfits : ¬wordBound ≤ 10 * word + digitValue c := by omega
    have hstep : Collected.takeWhole ⟨word, 0, false⟩ c = ⟨10 * word + digitValue c, 0, false⟩ := by
      simp [Collected.takeWhole, hfits]
    rw [List.foldl_cons, hstep]
    exact ih h

/-- Whether an integer stays one when it is read: it fits a word, with its sign. -/
def Fits (n : Int) : Prop := -(wordBound / 2 : Nat) ≤ n ∧ n < wordBound

/-- Digits without a zero in front are an integer, with a minus sign before them or without one. -/
theorem read?_digits {n : Nat} (h : n < wordBound) :
    read? (Nat.toDigits 10 n) = whole? false ⟨n, 0, false⟩ ∧
      read? ('-' :: Nat.toDigits 10 n) = whole? true ⟨n, 0, false⟩ := by
  have hdigits : ∀ c ∈ Nat.toDigits 10 n, isDigit c = true :=
    fun _ hc => Nat.isDigit_of_mem_toDigits (by decide) (by decide) hc
  have htake : (Nat.toDigits 10 n).takeWhile isDigit = Nat.toDigits 10 n :=
    List.takeWhile_eq_self_iff.mpr hdigits
  have hdrop : (Nat.toDigits 10 n).dropWhile isDigit = [] := List.dropWhile_eq_nil_iff.mpr hdigits
  have hvalue : valueFrom 0 (Nat.toDigits 10 n) = n := Nat.ofDigitChars_toDigits (by decide) (by decide)
  have hcollected : (Nat.toDigits 10 n).foldl Collected.takeWhole ⟨0, 0, false⟩ = ⟨n, 0, false⟩ := by
    rw [foldl_takeWhole (by rw [hvalue]; exact h), hvalue]
  have hstart : ¬((Nat.toDigits 10 n).isEmpty = true ∨
      (Nat.toDigits 10 n).head? = some '0' ∧ 1 < (Nat.toDigits 10 n).length) := by
    rintro (hempty | ⟨hzero, hlong⟩)
    · exact Nat.toDigits_ne_nil (List.isEmpty_iff.mp hempty)
    · rcases Nat.eq_zero_or_pos n with rfl | hpos
      · exact absurd hlong (by decide)
      · exact head?_toDigits_ne hpos hzero
  have hminus (rest : List Char) (heq : Nat.toDigits 10 n = '-' :: rest) : False :=
    absurd (hdigits '-' (heq ▸ List.mem_cons_self)) (by decide)
  constructor
  · simp only [read?, htake, hdrop, hcollected, if_neg hstart]
  · simp only [read?, htake, hdrop, hcollected, if_neg hstart]

theorem read?_text {n : Int} (h : Fits n) : read? (Number.int n).text.toList = some (.int n) := by
  obtain ⟨hleast, hgreatest⟩ := h
  cases n with
  | ofNat n =>
    have htext : (Number.int (Int.ofNat n)).text = n.repr := rfl
    have hn : n < wordBound := Int.ofNat_lt.mp hgreatest
    rw [htext, Nat.toList_repr, (read?_digits hn).1]
    rfl
  | negSucc n =>
    have htext : (Number.int (Int.negSucc n)).text = "-" ++ (n + 1).repr := rfl
    have hn : n + 1 ≤ wordBound / 2 := by omega
    have hminus : "-".toList = ['-'] := rfl
    rw [htext, String.toList_append, Nat.toList_repr, hminus, List.singleton_append,
      (read?_digits (by omega)).2, whole?]
    simpa [Int.negSucc_eq] using hn

end Literal

/-! ## From characters to tokens -/

namespace Token

variable {c : Char} {cs ds word : List Char} {s : Scan} {token opening closing : Token}
  {tokens further before : List Token}

/-- Whether the machine has read some tokens, last first; the last one may be a word that goes up to
the character read last. -/
inductive Scan.Settles : Scan → List Token → Prop where
  | between {tokens : List Token} : Settles ⟨.between, tokens⟩ tokens
  | word {seen : List Char} {token : Token} {tokens : List Token}
    (h : ofWord? seen.reverse = some token) : Settles ⟨.word seen, tokens⟩ (token :: tokens)

theorem Scan.Settles.finish? (h : s.Settles tokens) : Token.finish? s = some tokens.reverse := by
  cases h with
  | between => rfl
  | word h => simp [Token.finish?, h]

theorem isGap_of_punctuation? (h : punctuation? c = some token) : isGap c = false ∧ c ≠ '"' := by
  constructor
  · by_contra hgap
    simp only [isGap, Bool.not_eq_false, Bool.or_eq_true, beq_iff_eq] at hgap
    rcases hgap with ((rfl | rfl) | rfl) | rfl <;> cases h
  · rintro rfl
    cases h

/-- A sign ends the word before it. -/
theorem Scan.Settles.step? (h : s.Settles tokens) (hc : punctuation? c = some token) :
    Token.step? s c = some ⟨.between, token :: tokens⟩ := by
  obtain ⟨hgap, hquote⟩ := isGap_of_punctuation? hc
  have hbetween (tokens : List Token) : stepBetween? tokens c = ⟨.between, token :: tokens⟩ := by
    rw [stepBetween?, hgap, if_neg Bool.false_ne_true, if_neg hquote, hc]
  cases h with
  | between => rw [Token.step?, hbetween]
  | word h => simp [Token.step?, hc, h, hbetween]

/-- Whether characters are some tokens, wherever these begin. -/
def Scans (cs : List Char) (tokens : List Token) : Prop :=
  ∀ before, ∃ s, cs.foldlM step? ⟨.between, before⟩ = some s ∧ s.Settles (tokens.reverse ++ before)

/-- Whether they are, and the last token has ended. -/
def Closes (cs : List Char) (tokens : List Token) : Prop :=
  ∀ before, cs.foldlM step? ⟨.between, before⟩ = some ⟨.between, tokens.reverse ++ before⟩

theorem Closes.nil : Closes [] [] := fun _ => rfl

theorem Closes.scans (h : Closes cs tokens) : Scans cs tokens :=
  fun before => ⟨_, h before, .between⟩

theorem Closes.append_scans (h : Closes cs tokens) (h' : Scans ds further) :
    Scans (cs ++ ds) (tokens ++ further) := by
  intro before
  obtain ⟨s, hs, hsettles⟩ := h' (tokens.reverse ++ before)
  refine ⟨s, ?_, ?_⟩
  · rw [List.foldlM_append, h before]
    exact hs
  · rwa [List.reverse_append, List.append_assoc]

theorem Scans.punctuation (h : Scans cs tokens) (hc : punctuation? c = some token) :
    Closes (cs ++ [c]) (tokens ++ [token]) := by
  intro before
  obtain ⟨s, hs, hsettles⟩ := h before
  rw [List.foldlM_append, hs, List.reverse_append, List.reverse_singleton]
  simp [hsettles.step? hc]

/-- Tokens with a comma between any two. -/
theorem scans_intercalate {css : List (List Char)} {tokenss : List (List Token)}
    (h : List.Forall₂ Scans css tokenss) :
    Scans ([','].intercalate css) ([.comma].intercalate tokenss) := by
  have hcomma : punctuation? ',' = some .comma := rfl
  induction h with
  | nil => exact Closes.nil.scans
  | cons hfirst hrest ih =>
    cases hrest with
    | nil =>
      rw [List.intercalate_singleton, List.intercalate_singleton]
      exact hfirst
    | cons hnext hrest =>
      rw [List.intercalate_cons_cons, List.intercalate_cons_cons]
      exact (hfirst.punctuation hcomma).append_scans ih

theorem Scans.bracketed {c d : Char} (h : Scans cs tokens) (hc : punctuation? c = some opening)
    (hd : punctuation? d = some closing) :
    Scans (c :: cs ++ [d]) (opening :: tokens ++ [closing]) :=
  (((Closes.nil.scans.punctuation hc).append_scans h).punctuation hd).scans

/-! ### Texts -/

theorem hexValue?_hexDigit {n : Nat} (h : n < 16) : hexValue? (hexDigit n) = some n := by
  have hall : ∀ n < 16, hexValue? (hexDigit n) = some n := by decide
  exact hall n h

/-- A control character is got back from its digits. -/
theorem foldlM_escape_control (hc : c.toNat < 0x20) (seen : List Char) (before : List Token) :
    ("\\u00".toList ++ [hexDigit (c.toNat / 16), hexDigit (c.toNat % 16)]).foldlM step?
      ⟨.text seen, before⟩ = some ⟨.text (c :: seen), before⟩ := by
  have hstart : "\\u00".toList.foldlM step? ⟨.text seen, before⟩ =
      some ⟨.hex seen none 2 0, before⟩ := rfl
  have hhigh : hexValue? (hexDigit (c.toNat / 16)) = some (c.toNat / 16) :=
    hexValue?_hexDigit (by omega)
  have hlow : hexValue? (hexDigit (c.toNat % 16)) = some (c.toNat % 16) :=
    hexValue?_hexDigit (by omega)
  have hsurrogate : ¬0xD800 ≤ c.toNat ∧ ¬0xDC00 ≤ c.toNat := by omega
  rw [List.foldlM_append, hstart]
  simp [step?, hhigh, hlow, Nat.div_add_mod, afterHex?, hsurrogate]

/-- A character is got back from what it is written as in a text. -/
theorem foldlM_escape (c : Char) (seen : List Char) (before : List Token) :
    (escape c).foldlM step? ⟨.text seen, before⟩ = some ⟨.text (c :: seen), before⟩ := by
  by_cases hletter : c ∈ ['"', '\\', '\n', '\r', '\t', '\x08', '\x0c']
  · simp only [List.mem_cons, List.not_mem_nil, or_false] at hletter
    rcases hletter with rfl | rfl | rfl | rfl | rfl | rfl | rfl <;> rfl
  · simp only [List.mem_cons, List.not_mem_nil, or_false, not_or] at hletter
    obtain ⟨hquote, hbackslash, hnewline, hreturn, htab, hback, hform⟩ := hletter
    unfold escape
    rw [if_neg hquote, if_neg hbackslash, if_neg hnewline, if_neg hreturn, if_neg htab,
      if_neg hback, if_neg hform]
    by_cases hcontrol : c.toNat < 0x20
    · rw [if_pos hcontrol]
      exact foldlM_escape_control hcontrol seen before
    · rw [if_neg hcontrol]
      simp [step?, hquote, hbackslash, hcontrol]

theorem closes_quote (s : String) : Closes (quote s).toList [.atom (.str s)] := by
  have hescaped (cs seen : List Char) (before : List Token) :
      (cs.flatMap escape).foldlM step? ⟨.text seen, before⟩ =
        some ⟨.text (cs.reverse ++ seen), before⟩ := by
    induction cs generalizing seen with
    | nil => rfl
    | cons c cs ih =>
      rw [List.flatMap_cons, List.foldlM_append, foldlM_escape]
      simp [ih]
  have htext : (quote s).toList = '"' :: (s.toList.flatMap escape ++ ['"']) := by
    simp [quote]
  have hopening (before : List Token) :
      step? ⟨.between, before⟩ '"' = some ⟨.text [], before⟩ := rfl
  intro before
  rw [htext, List.foldlM_cons, hopening, Option.bind_eq_bind, Option.bind_some, List.foldlM_append,
    hescaped]
  simp [step?]

/-! ### Words -/

/-- Whether a character is part of a word. -/
def joins (c : Char) : Bool := !(isGap c || c == '"' || (punctuation? c).isSome)

/-- No sign is a digit. -/
theorem joins_of_isDigit (h : isDigit c = true) : joins c = true := by
  simp only [joins, Bool.not_eq_true', Bool.or_eq_false_iff, beq_eq_false_iff_ne,
    Option.isSome_eq_false_iff, Option.isNone_iff_eq_none]
  refine ⟨⟨?_, ?_⟩, ?_⟩
  · rw [← Bool.not_eq_true]
    intro hgap
    simp only [isGap, Bool.or_eq_true, beq_iff_eq] at hgap
    rcases hgap with ((rfl | rfl) | rfl) | rfl <;> cases h
  · rintro rfl
    cases h
  · unfold punctuation?
    repeat' split
    all_goals first | rfl | (next heq => rw [heq] at h; cases h)

theorem step?_word (h : joins c = true) (seen : List Char) (before : List Token) :
    step? ⟨.word seen, before⟩ c = some ⟨.word (c :: seen), before⟩ := by
  have hends : (isGap c || c == '"' || (punctuation? c).isSome) = false := by simpa [joins] using h
  simp only [step?, hends, Bool.false_eq_true, if_false]

theorem step?_between (h : joins c = true) (before : List Token) :
    step? ⟨.between, before⟩ c = some ⟨.word [c], before⟩ := by
  simp only [joins, Bool.not_eq_true', Bool.or_eq_false_iff, beq_eq_false_iff_ne,
    Option.isSome_eq_false_iff, Option.isNone_iff_eq_none] at h
  obtain ⟨⟨hgap, hquote⟩, hsign⟩ := h
  rw [step?, stepBetween?, hgap, if_neg Bool.false_ne_true, if_neg hquote, hsign]

theorem scans_word (hne : word ≠ []) (hword : word.all joins = true)
    (htoken : ofWord? word = some token) : Scans word [token] := by
  have hgather (cs seen : List Char) (before : List Token) (hcs : cs.all joins = true) :
      cs.foldlM step? ⟨.word seen, before⟩ = some ⟨.word (cs.reverse ++ seen), before⟩ := by
    induction cs generalizing seen with
    | nil => rfl
    | cons c cs ih =>
      rw [List.all_cons, Bool.and_eq_true] at hcs
      obtain ⟨hc, hcs⟩ := hcs
      rw [List.foldlM_cons, step?_word hc, Option.bind_eq_bind, Option.bind_some, ih _ hcs]
      simp
  intro before
  obtain ⟨c, cs, rfl⟩ := List.exists_cons_of_ne_nil hne
  rw [List.all_cons, Bool.and_eq_true] at hword
  obtain ⟨hc, hcs⟩ := hword
  refine ⟨⟨.word (c :: cs).reverse, before⟩, ?_, .word ?_⟩
  · rw [List.foldlM_cons, step?_between hc, Option.bind_eq_bind, Option.bind_some,
      hgather cs [c] before hcs, List.reverse_cons]
  · rwa [List.reverse_reverse]

theorem scans_int {n : Int} (h : Literal.Fits n) :
    Scans (Number.int n).text.toList [.atom (.num (.int n))] := by
  have hdigits (n : Nat) : n.repr.toList.all (fun c => isDigit c || c == '-') = true := by
    refine List.all_eq_true.mpr fun c hc => ?_
    have hdigit : isDigit c = true :=
      Nat.isDigit_of_mem_toDigits (by decide) (by decide) (Nat.toList_repr ▸ hc)
    rw [hdigit, Bool.true_or]
  have hchars : (Number.int n).text.toList.all (fun c => isDigit c || c == '-') = true := by
    cases n with
    | ofNat n => exact hdigits n
    | negSucc n =>
      have htext : (Number.int (Int.negSucc n)).text.toList = '-' :: (n + 1).repr.toList :=
        String.toList_append
      rw [htext, List.all_cons, hdigits]
      rfl
  -- the words that are no numbers have letters
  have hname {name : String} (hletter : name.toList.all (fun c => isDigit c || c == '-') = false) :
      (Number.int n).text.toList ≠ name.toList := by
    intro heq
    rw [heq, hletter] at hchars
    cases hchars
  have htoken : ofWord? (Number.int n).text.toList = some (.atom (.num (.int n))) := by
    rw [ofWord?, if_neg (hname (by decide)), if_neg (hname (by decide)),
      if_neg (hname (by decide)), Literal.read?_text h, Option.map_some]
  have hne : (Number.int n).text.toList ≠ [] := by
    intro hnil
    rw [hnil] at htoken
    cases htoken
  refine scans_word hne (List.all_eq_true.mpr fun c hc => ?_) htoken
  rcases Bool.or_eq_true_iff.mp (List.all_eq_true.mp hchars c hc) with hdigit | hsign
  · exact joins_of_isDigit hdigit
  · obtain rfl := eq_of_beq hsign
    rfl

end Token

/-! ## From values to tokens and back -/

mutual

/-- The tokens of a value. -/
def tokens : Json → List Token
  | .arr items => .openList :: [Token.comma].intercalate (tokensIn items) ++ [.closeList]
  | .obj entries => .openObject :: [Token.comma].intercalate (tokensUnder entries) ++ [.closeObject]
  | j => [.atom j]

/-- The tokens of the items of a list. -/
def tokensIn : List Json → List (List Token)
  | [] => []
  | j :: rest => tokens j :: tokensIn rest

/-- The tokens of the entries of an object. -/
def tokensUnder : List (String × Json) → List (List Token)
  | [] => []
  | (key, j) :: rest => (.atom (.str key) :: .colon :: tokens j) :: tokensUnder rest

end

/-- Whether a value is got back from its text: lists and objects are nested in it at most so many
levels deep, the keys of an object are distinct, and numbers are integers that fit. -/
inductive Legible : Nat → Json → Prop where
  | null {levels : Nat} : Legible levels .null
  | bool {levels : Nat} (b : Bool) : Legible levels (.bool b)
  | int {levels : Nat} {n : Int} (h : Literal.Fits n) : Legible levels (.num (.int n))
  | str {levels : Nat} (s : String) : Legible levels (.str s)
  | arr {levels : Nat} {items : List Json} (h : ∀ j ∈ items, Legible levels j) :
    Legible (levels + 1) (.arr items)
  | obj {levels : Nat} {entries : Entries} (hkeys : entries.keys.Nodup)
    (h : ∀ e ∈ entries, Legible levels e.2) : Legible (levels + 1) (.obj entries)

open Token (Scans)

variable {levels : Nat} {j : Json} {items : List Json} {entries : Entries} {frames : List Frame}

theorem forall₂_scans_items (h : ∀ j ∈ items, Scans j.compact.toList j.tokens) :
    List.Forall₂ Scans ((compactItems items).map String.toList) (tokensIn items) := by
  induction items with
  | nil => exact .nil
  | cons j items ih =>
    obtain ⟨hj, hitems⟩ := List.forall_mem_cons.mp h
    exact .cons hj (ih hitems)

theorem forall₂_scans_entries (h : ∀ e ∈ entries, Scans e.2.compact.toList e.2.tokens) :
    List.Forall₂ Scans ((compactEntries entries).map String.toList) (tokensUnder entries) := by
  induction entries with
  | nil => exact .nil
  | cons e entries ih =>
    obtain ⟨key, j⟩ := e
    obtain ⟨hj, hentries⟩ := List.forall_mem_cons.mp h
    have hcolon : Token.punctuation? ':' = some .colon := rfl
    have hkey := (Token.closes_quote key).scans.punctuation hcolon
    have hentry := hkey.append_scans hj
    exact .cons (by simpa using hentry) (ih hentries)

/-- The compact text of a value gives its tokens. -/
theorem Legible.scans_compact (h : Legible levels j) : Scans j.compact.toList j.tokens := by
  induction h with
  | null => exact Token.scans_word (by decide) rfl rfl
  | bool b => cases b <;> exact Token.scans_word (by decide) rfl rfl
  | int h => exact Token.scans_int h
  | str s => exact (Token.closes_quote s).scans
  | @arr levels items _ ih =>
    have htext : (Json.arr items).compact.toList =
        '[' :: [','].intercalate ((compactItems items).map String.toList) ++ [']'] := by
      simp [compact, String.toList_intercalate]
    rw [htext]
    exact (Token.scans_intercalate (forall₂_scans_items ih)).bracketed rfl rfl
  | @obj levels entries _ _ ih =>
    have htext : (Json.obj entries).compact.toList =
        '\x7b' :: [','].intercalate ((compactEntries entries).map String.toList) ++ ['\x7d'] := by
      simp [compact, String.toList_intercalate]
    rw [htext]
    exact (Token.scans_intercalate (forall₂_scans_entries ih)).bracketed rfl rfl

namespace Reading

/-- Whether a value is read from its tokens, with some lists and objects open. -/
def Reads (frames : List Frame) (j : Json) : Prop :=
  j.tokens.foldlM step? ⟨.value, frames⟩ = some ⟨.next j, frames⟩

/-- No value begins with the end of a list. -/
theorem exists_head_tokens (j : Json) :
    ∃ token rest, j.tokens = token :: rest ∧ token ≠ .closeList := by
  cases j <;> exact ⟨_, _, rfl, nofun⟩

theorem exists_intercalate_cons (separator first : List Token) (others : List (List Token)) :
    ∃ rest, separator.intercalate (first :: others) = first ++ rest := by
  cases others with
  | nil => exact ⟨[], by rw [List.intercalate_singleton, List.append_nil]⟩
  | cons next others => exact ⟨_, by rw [List.intercalate_cons_cons, List.append_assoc]⟩

/-- The first item of a list is read like any other value. -/
theorem foldlM_firstItem (j : Json) (items : List Json) (rest : List Token) (frames : List Frame) :
    ([Token.comma].intercalate (tokensIn (j :: items)) ++ rest).foldlM step? ⟨.firstItem, frames⟩ =
      ([Token.comma].intercalate (tokensIn (j :: items)) ++ rest).foldlM step? ⟨.value, frames⟩ := by
  obtain ⟨token, more, hj, hne⟩ := exists_head_tokens j
  obtain ⟨others, hothers⟩ := exists_intercalate_cons [.comma] j.tokens (tokensIn items)
  have hstep : step? ⟨.firstItem, frames⟩ token = step? ⟨.value, frames⟩ token := by
    cases token with
    | closeList => exact absurd rfl hne
    | _ => rfl
  rw [tokensIn, hothers, hj, List.cons_append, List.cons_append, List.foldlM_cons, hstep,
    List.foldlM_cons]

theorem foldlM_firstKey (e : String × Json) (entries : Entries) (rest : List Token)
    (frames : List Frame) :
    ([Token.comma].intercalate (tokensUnder (e :: entries)) ++ rest).foldlM step?
      ⟨.firstKey, frames⟩ =
      ([Token.comma].intercalate (tokensUnder (e :: entries)) ++ rest).foldlM step?
        ⟨.key [], frames⟩ := by
  obtain ⟨key, j⟩ := e
  obtain ⟨others, hothers⟩ := exists_intercalate_cons [.comma]
    (.atom (.str key) :: .colon :: j.tokens) (tokensUnder entries)
  rw [tokensUnder, hothers]
  rfl

theorem reads_items (hne : items ≠ [])
    (h : ∀ j ∈ items, ∀ seen, Reads (.list seen :: frames) j) (seen : List Json) :
    ([Token.comma].intercalate (tokensIn items) ++ [Token.closeList]).foldlM step?
      ⟨.value, .list seen :: frames⟩ = some ⟨.next (.arr (seen.reverse ++ items)), frames⟩ := by
  -- what was read stands in the frame, and moves there item by item
  induction items generalizing seen with
  | nil => exact absurd rfl hne
  | cons j items ih =>
    obtain ⟨hj, hitems⟩ := List.forall_mem_cons.mp h
    cases items with
    | nil =>
      rw [tokensIn, tokensIn, List.intercalate_singleton, List.foldlM_append, hj seen]
      simp [step?, next?]
    | cons k items =>
      have hrest := ih (by simp) hitems (j :: seen)
      rw [tokensIn, tokensIn, List.intercalate_cons_cons, List.append_assoc, List.append_assoc,
        List.foldlM_append, hj seen]
      simpa [step?, next?, tokensIn] using hrest

theorem Reads.entry {key : String} {seen : Entries} (h : Reads (.entry seen key :: frames) j) :
    (.atom (.str key) :: .colon :: j.tokens).foldlM step? ⟨.key seen, frames⟩ =
      some ⟨.next j, .entry seen key :: frames⟩ :=
  h

theorem reads_entries (hne : entries ≠ [])
    (h : ∀ e ∈ entries, ∀ seen key, Reads (.entry seen key :: frames) e.2) (seen : Entries)
    (hkeys : (Entries.keys (seen ++ entries)).Nodup) :
    ([Token.comma].intercalate (tokensUnder entries) ++ [Token.closeObject]).foldlM step?
      ⟨.key seen, frames⟩ = some ⟨.next (.obj (seen ++ entries)), frames⟩ := by
  induction entries generalizing seen with
  | nil => exact absurd rfl hne
  | cons e entries ih =>
    obtain ⟨key, j⟩ := e
    obtain ⟨hj, hentries⟩ := List.forall_mem_cons.mp h
    have hinsert : seen.insert key j = seen ++ [(key, j)] := by
      refine Entries.insert_eq_append fun hkey => ?_
      rw [Entries.keys, List.map_append, List.nodup_append] at hkeys
      exact hkeys.2.2 key hkey key (by simp) rfl
    cases entries with
    | nil =>
      rw [tokensUnder, tokensUnder, List.intercalate_singleton, List.foldlM_append,
        (hj seen key).entry]
      simp [step?, next?, hinsert]
    | cons k entries =>
      have hrest := ih (by simp) hentries (seen ++ [(key, j)]) (by simpa using hkeys)
      rw [tokensUnder, tokensUnder, List.intercalate_cons_cons, List.append_assoc, List.append_assoc,
        List.foldlM_append, (hj seen key).entry]
      simpa [step?, next?, tokensUnder, hinsert] using hrest

end Reading

open Reading (Reads)

/-- A value is read from its tokens, as long as it is not nested too deep. -/
theorem Legible.reads (h : Legible levels j) (hframes : frames.length + levels ≤ maxDepth) :
    Reads frames j := by
  induction h generalizing frames with
  | null => rfl
  | bool => rfl
  | int => rfl
  | str => rfl
  | @arr levels items _ ih =>
    have hopens : frames.length < maxDepth := by omega
    have hitems : ∀ j ∈ items, ∀ seen, Reads (.list seen :: frames) j :=
      fun j hj seen => ih j hj (by rw [List.length_cons]; omega)
    have hopening : Reading.step? ⟨.value, frames⟩ .openList =
        some ⟨.firstItem, .list [] :: frames⟩ := if_pos hopens
    rw [Reads, tokens, List.cons_append, List.foldlM_cons, hopening, Option.bind_eq_bind,
      Option.bind_some]
    cases items with
    | nil => rfl
    | cons k items =>
      rw [Reading.foldlM_firstItem]
      exact Reading.reads_items (List.cons_ne_nil k items) hitems []
  | @obj levels entries hkeys _ ih =>
    have hopens : frames.length < maxDepth := by omega
    have hentries : ∀ e ∈ entries, ∀ seen key, Reads (.entry seen key :: frames) e.2 :=
      fun e he seen key => ih e he (by rw [List.length_cons]; omega)
    have hopening : Reading.step? ⟨.value, frames⟩ .openObject = some ⟨.firstKey, frames⟩ :=
      if_pos hopens
    rw [Reads, tokens, List.cons_append, List.foldlM_cons, hopening, Option.bind_eq_bind,
      Option.bind_some]
    cases entries with
    | nil => rfl
    | cons e entries =>
      rw [Reading.foldlM_firstKey]
      exact Reading.reads_entries (List.cons_ne_nil e entries) hentries [] hkeys

/-- A value is read from its text. -/
theorem Legible.read?_compact (h : Legible maxDepth j) : read? j.compact = some j := by
  obtain ⟨s, hs, hsettles⟩ := h.scans_compact []
  have hscan : Token.scan? j.compact = some j.tokens := by
    rw [Token.scan?, hs, Option.bind_eq_bind, Option.bind_some, hsettles.finish?]
    simp
  have hread : j.tokens.foldlM Reading.step? ⟨.value, []⟩ = some ⟨.next j, []⟩ :=
    h.reads (Nat.le_of_eq (Nat.zero_add maxDepth))
  rw [read?, hscan]
  simp [hread]

end SearchComposer.Json
