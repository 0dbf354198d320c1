import Mathlib.Data.List.Basic
import BoilerPulse.Framework.Decimal
import BoilerPulse.Framework.Utf8

/-!
# JSON texts

Values, how they are written, and how a text is read.

* A text is cut into `pieces`, for strings and for their literals alike.
* `quote` writes a string the way an encoder does that is careful with HTML: control characters,
  `<`, `>`, `&` and the line separators are escaped, and a byte that is not UTF-8 is written as an
  escaped U+FFFD. `unquote` reads any literal. Together they make a string valid
  (`unquote_quote`), and nothing else.
* A `Value` has numbers as they are written (`Number`), and objects with their members in order.
  `render` writes it without blanks; `parse` takes any text of the grammar.
* `parse_render` is the round trip: what is read is the value with all its strings made
  valid (`clean`).
-/

namespace Framework
namespace Json

open Decimal Utf8

/-! ### Pieces -/

section Pieces

variable {α β : Type}

/-- `pieces`, as many as the bound allows. -/
def piecesUpTo (len : List α → ℕ) : ℕ → List α → List (List α)
  | 0, _ => []
  | _ + 1, [] => []
  | n + 1, x :: xs =>
    (x :: xs).take (max 1 (len (x :: xs))) ::
      piecesUpTo len n ((x :: xs).drop (max 1 (len (x :: xs))))

/-- A list cut into pieces, each as long as `len` says of the list from there on, and not
empty. -/
def pieces (len : List α → ℕ) (s : List α) : List (List α) :=
  piecesUpTo len s.length s

variable {len : List α → ℕ}

theorem piecesUpTo_eq {n : ℕ} : ∀ {m : ℕ} {s : List α}, s.length ≤ n → s.length ≤ m →
    piecesUpTo len n s = piecesUpTo len m s := by
  induction n with
  | zero =>
    intro m s hn hm
    rw [List.eq_nil_of_length_eq_zero (Nat.le_zero.mp hn)]
    cases m <;> rfl
  | succ n ih =>
    intro m s hn hm
    cases s with
    | nil => cases m <;> rfl
    | cons x xs =>
      cases m with
      | zero => cases hm
      | succ m =>
        have hdrop : ((x :: xs).drop (max 1 (len (x :: xs)))).length ≤ xs.length := by
          rw [List.length_drop, List.length_cons]
          omega
        rw [List.length_cons] at hn hm
        rw [piecesUpTo, piecesUpTo, ih (m := m) (by omega) (by omega)]

/-- The first piece. -/
theorem pieces_append {p : List α} (hp : p ≠ []) {rest : List α}
    (hlen : max 1 (len (p ++ rest)) = p.length) :
    pieces len (p ++ rest) = p :: pieces len rest := by
  obtain ⟨x, xs, rfl⟩ := List.exists_cons_of_ne_nil hp
  rw [pieces, List.length_append, List.length_cons, Nat.succ_add, List.cons_append, piecesUpTo,
    ← List.cons_append, hlen, List.take_left' rfl, List.drop_left' rfl]
  rw [piecesUpTo_eq (m := rest.length) (Nat.le_add_left _ _) (Nat.le_refl _)]
  rfl

end Pieces

/-! ### Strings -/

/-- `"`. -/
def quotes : UInt8 := 0x22

/-- The escape character. -/
def backslash : UInt8 := 0x5C

/-- `\uXXXX`. -/
def escapeUnit (u : ℕ) : List UInt8 :=
  [backslash, 0x75, hexDigit (u / 4096 % 16), hexDigit (u / 256 % 16), hexDigit (u / 16 % 16),
    hexDigit (u % 16)]

def quoteAscii (b : UInt8) : List UInt8 :=
  if b = quotes ∨ b = backslash then [backslash, b]
  else if b = 0x08 then [backslash, 0x62]
  else if b = 0x0C then [backslash, 0x66]
  else if b = 0x0A then [backslash, 0x6E]
  else if b = 0x0D then [backslash, 0x72]
  else if b = 0x09 then [backslash, 0x74]
  -- control characters, and those that mean something in HTML
  else if b < 0x20 ∨ b = 0x3C ∨ b = 0x3E ∨ b = 0x26 then escapeUnit b.toNat
  else [b]

/-- A sequence of UTF-8, or a byte that belongs to none. -/
def quoteRune (r : List UInt8) : List UInt8 :=
  match r with
  | [b] => if b < 0x80 then quoteAscii b else escapeUnit 0xFFFD
  | r =>
    if r = [0xE2, 0x80, 0xA8] then escapeUnit 0x2028
    else if r = [0xE2, 0x80, 0xA9] then escapeUnit 0x2029
    else r

/-- The inside of the literal of a string. -/
def quote (s : List UInt8) : List UInt8 :=
  (pieces runeLen s).flatMap quoteRune

/-- The number in a `\uXXXX` at the front. -/
def escapedUnit : List UInt8 → Option ℕ
  | a :: b :: c :: d :: e :: f :: _ =>
    if a = backslash ∧ b = 0x75 then do
      let c ← hexValue c
      let d ← hexValue d
      let e ← hexValue e
      let f ← hexValue f
      some (c * 4096 + d * 256 + e * 16 + f)
    else none
  | _ => none

/-- A high and a low surrogate. -/
def decodePair (u v : ℕ) : Option ℕ :=
  if 0xD800 ≤ u ∧ u < 0xDC00 ∧ 0xDC00 ≤ v ∧ v < 0xE000 then
    some ((u - 0xD800) * 1024 + (v - 0xDC00) + 0x10000)
  else none

/-- The length of what stands for one character in a literal. -/
def unitLen (s : List UInt8) : ℕ :=
  match escapedUnit s with
  | some u => if ((escapedUnit (s.drop 6)).bind (decodePair u)).isSome then 12 else 6
  | none => if s.head? = some backslash then 2 else runeLen s

/-- The character after a backslash. -/
def decodeEscape (c : UInt8) : Option (List UInt8) :=
  if c = quotes ∨ c = backslash ∨ c = 0x2F then some [c]
  else if c = 0x62 then some [0x08]
  else if c = 0x66 then some [0x0C]
  else if c = 0x6E then some [0x0A]
  else if c = 0x72 then some [0x0D]
  else if c = 0x74 then some [0x09]
  else none

def decodeUnit (s : List UInt8) : Option (List UInt8) :=
  match escapedUnit s with
  | some u =>
    match (escapedUnit (s.drop 6)).bind (decodePair u) with
    | some c => some (encodeRune c)
    -- a surrogate that is left alone
    | none => some (if 0xD800 ≤ u ∧ u < 0xE000 then replacement else encodeRune u)
  | none =>
    match s with
    | [b] => if b = backslash then none else some (if b < 0x80 then [b] else replacement)
    | b :: c :: rest => if b = backslash then decodeEscape c else some (b :: c :: rest)
    | [] => some []

def unquote (literal : List UInt8) : Option (List UInt8) :=
  ((pieces unitLen literal).mapM decodeUnit).map List.flatten

/-- The literal up to the closing quotes, and what follows them. -/
def readLiteral : List UInt8 → Option (List UInt8 × List UInt8)
  | [] => none
  | b :: s =>
    if b = quotes then some ([], s)
    else if b < 0x20 then none
    else if b = backslash then
      match s with
      | [] => none
      | c :: s => (readLiteral s).map fun p => (b :: c :: p.1, p.2)
    else (readLiteral s).map fun p => (b :: p.1, p.2)

/-- A string, after the opening quotes. -/
def readString (s : List UInt8) : Option (List UInt8 × List UInt8) :=
  match readLiteral s with
  | none => none
  | some (literal, rest) => (unquote literal).map fun s => (s, rest)

/-! ### Values -/

/-- `,`, `:`, and the brackets. -/
def comma : UInt8 := 0x2C

@[inherit_doc comma]
def colon : UInt8 := 0x3A

@[inherit_doc comma]
def openBracket : UInt8 := 0x5B

@[inherit_doc comma]
def closeBracket : UInt8 := 0x5D

@[inherit_doc comma]
def openBrace : UInt8 := 0x7B

@[inherit_doc comma]
def closeBrace : UInt8 := 0x7D

/-- `e` or `E`, a sign, and digits; or nothing. -/
def isExponent : List UInt8 → Bool
  | [] => true
  | e :: s =>
    (e = 0x65 || e = 0x45) && match s with
      | [] => false
      | c :: ds => if c = 0x2B ∨ c = 0x2D then ds ≠ [] && ds.all isDigit else (c :: ds).all isDigit

/-- A point and digits, or nothing; and an exponent. -/
def isFraction : List UInt8 → Bool
  | [] => true
  | c :: s =>
    if c = 0x2E then s.takeWhile isDigit ≠ [] && isExponent (s.dropWhile isDigit)
    else isExponent (c :: s)

/-- Digits without a leading zero, and what may follow them. -/
def isUnsigned (s : List UInt8) : Bool :=
  s.takeWhile isDigit ≠ [] && (s.head? ≠ some 0x30 || (s.takeWhile isDigit).length = 1) &&
    isFraction (s.dropWhile isDigit)

def isNumber : List UInt8 → Bool
  | [] => false
  | c :: s => if c = 0x2D then isUnsigned s else isUnsigned (c :: s)

/-- The characters of numbers. -/
def isNumberByte (b : UInt8) : Bool :=
  isDigit b || b = 0x2B || b = 0x2D || b = 0x2E || b = 0x65 || b = 0x45

/-- A number, as it is written. -/
def Number : Type :=
  { literal : List UInt8 // isNumber literal = true ∧ literal.all isNumberByte = true }
  deriving DecidableEq

inductive Value where
  | null
  | bool (b : Bool)
  | num (n : Number)
  | str (s : List UInt8)
  | arr (elements : List Value)
  | obj (members : List (List UInt8 × Value))

def nullText : List UInt8 := [0x6E, 0x75, 0x6C, 0x6C]

def trueText : List UInt8 := [0x74, 0x72, 0x75, 0x65]

def falseText : List UInt8 := [0x66, 0x61, 0x6C, 0x73, 0x65]

def renderString (s : List UInt8) : List UInt8 :=
  quotes :: (quote s ++ [quotes])

mutual

def render : Value → List UInt8
  | .null => nullText
  | .bool true => trueText
  | .bool false => falseText
  | .num n => n.val
  | .str s => renderString s
  | .arr vs => openBracket :: (renderElements vs ++ [closeBracket])
  | .obj ms => openBrace :: (renderMembers ms ++ [closeBrace])

def renderElements : List Value → List UInt8
  | [] => []
  | [v] => render v
  | v :: w :: vs => render v ++ comma :: renderElements (w :: vs)

def renderMembers : List (List UInt8 × Value) → List UInt8
  | [] => []
  | [(name, v)] => renderString name ++ colon :: render v
  | (name, v) :: m :: ms =>
    renderString name ++ colon :: (render v ++ comma :: renderMembers (m :: ms))

end

mutual

/-- The value with every string made valid. -/
def clean : Value → Value
  | .null => .null
  | .bool b => .bool b
  | .num n => .num n
  | .str s => .str (toValid s)
  | .arr vs => .arr (cleanElements vs)
  | .obj ms => .obj (cleanMembers ms)

@[inherit_doc clean]
def cleanElements : List Value → List Value
  | [] => []
  | v :: vs => clean v :: cleanElements vs

@[inherit_doc clean]
def cleanMembers : List (List UInt8 × Value) → List (List UInt8 × Value)
  | [] => []
  | (name, v) :: ms => (toValid name, clean v) :: cleanMembers ms

end

/-! ### Reading -/

/-- Blanks, tabs and line ends. -/
def isSpace (b : UInt8) : Bool :=
  b = 0x20 || b = 0x09 || b = 0x0A || b = 0x0D

def skipSpace (s : List UInt8) : List UInt8 :=
  s.dropWhile isSpace

def readNumber (s : List UInt8) : Option (Value × List UInt8) :=
  if h : isNumber (s.takeWhile isNumberByte) = true then
    some (.num ⟨s.takeWhile isNumberByte, h, List.all_takeWhile⟩, s.dropWhile isNumberByte)
  else none

/-- `null`, `true`, `false`, a string or a number. -/
def readScalar (s : List UInt8) : Option (Value × List UInt8) :=
  if nullText.isPrefixOf s then some (.null, s.drop nullText.length)
  else if trueText.isPrefixOf s then some (.bool true, s.drop trueText.length)
  else if falseText.isPrefixOf s then some (.bool false, s.drop falseText.length)
  else if s.head? = some quotes then (readString s.tail).map fun p => (.str p.1, p.2)
  else readNumber s

mutual

/-- A value at the front. The number bounds the depth and the number of parts; the length of the
text is always enough. -/
def readValue : ℕ → List UInt8 → Option (Value × List UInt8)
  | 0, _ => none
  | n + 1, s =>
    match skipSpace s with
    | [] => none
    | b :: s =>
      if b = openBracket then
        if (skipSpace s).head? = some closeBracket then some (.arr [], (skipSpace s).tail)
        else (readElements n s).map fun p => (.arr p.1, p.2)
      else if b = openBrace then
        if (skipSpace s).head? = some closeBrace then some (.obj [], (skipSpace s).tail)
        else (readMembers n s).map fun p => (.obj p.1, p.2)
      else readScalar (b :: s)

/-- One element or more, up to the closing bracket. -/
def readElements : ℕ → List UInt8 → Option (List Value × List UInt8)
  | 0, _ => none
  | n + 1, s =>
    match readValue n s with
    | none => none
    | some (v, s) =>
      match skipSpace s with
      | [] => none
      | b :: s =>
        if b = comma then (readElements n s).map fun p => (v :: p.1, p.2)
        else if b = closeBracket then some ([v], s)
        else none

/-- One member or more, up to the closing brace. -/
def readMembers : ℕ → List UInt8 → Option (List (List UInt8 × Value) × List UInt8)
  | 0, _ => none
  | n + 1, s =>
    if (skipSpace s).head? = some quotes then
      match readString (skipSpace s).tail with
      | none => none
      | some (name, s) =>
        if (skipSpace s).head? = some colon then
          match readValue n (skipSpace s).tail with
          | none => none
          | some (v, s) =>
            match skipSpace s with
            | [] => none
            | b :: s =>
              if b = comma then (readMembers n s).map fun p => ((name, v) :: p.1, p.2)
              else if b = closeBrace then some ([(name, v)], s)
              else none
        else none
    else none

end

/-- A whole text. -/
def parse (s : List UInt8) : Option Value :=
  match readValue (s.length + 1) s with
  | none => none
  | some (v, rest) => if skipSpace rest = [] then some v else none

/-! ### Strings, there and back -/

/-- A part of a literal that the closing quotes are not in. -/
def Closed (q : List UInt8) : Prop :=
  ∀ t, readLiteral (q ++ t) = (readLiteral t).map fun p => (q ++ p.1, p.2)

theorem closed_nil : Closed [] := by
  intro t
  cases h : readLiteral t <;> simp [h]

theorem Closed.append {p q : List UInt8} (hp : Closed p) (hq : Closed q) : Closed (p ++ q) := by
  intro t
  rw [List.append_assoc, hp, hq, Option.map_map]
  simp [Function.comp_def]

theorem closed_plain {b : UInt8} (hq : b ≠ quotes) (hc : ¬ b < 0x20) (hb : b ≠ backslash) :
    Closed [b] := by
  intro t
  rw [List.singleton_append, readLiteral.eq_def]
  show (if b = quotes then _ else _) = _
  rw [if_neg hq, if_neg hc, if_neg hb]
  rfl

theorem closed_escape (c : UInt8) : Closed [backslash, c] := by
  intro t
  show readLiteral (backslash :: c :: t) = _
  rw [readLiteral, if_neg (by decide), if_neg (by decide), if_pos rfl]
  rfl

theorem closed_of_forall {q : List UInt8} (h : ∀ b ∈ q, Closed [b]) : Closed q := by
  induction q with
  | nil => exact closed_nil
  | cons b q ih =>
    exact (h b (by simp)).append (ih fun x hx => h x (List.mem_cons_of_mem b hx))

theorem closed_escapeUnit {u : ℕ} : Closed (escapeUnit u) := by
  have hdigit : ∀ d < 16, hexDigit d ≠ quotes ∧ ¬ hexDigit d < 0x20 ∧ hexDigit d ≠ backslash := by
    decide
  have hclosed : ∀ v, Closed [hexDigit (v % 16)] := by
    intro v
    obtain ⟨hq, hc, hb⟩ := hdigit _ (Nat.mod_lt v (by decide))
    exact closed_plain hq hc hb
  exact (closed_escape 0x75).append ((hclosed _).append ((hclosed _).append ((hclosed _).append
    (hclosed _))))

theorem closed_quoteAscii (b : UInt8) : Closed (quoteAscii b) := by
  unfold quoteAscii
  split_ifs with h₁ h₂ h₃ h₄ h₅ h₆ h₇
  · exact closed_escape b
  · exact closed_escape _
  · exact closed_escape _
  · exact closed_escape _
  · exact closed_escape _
  · exact closed_escape _
  · exact closed_escapeUnit
  · exact closed_plain (fun h => h₁ (.inl h)) (fun h => h₇ (.inl h)) (fun h => h₁ (.inr h))

theorem quote_bad {b : UInt8} {bs : List UInt8} (h : runeLen (b :: bs) = 0) :
    quote (b :: bs) = escapeUnit 0xFFFD ++ quote bs := by
  have hb : ¬ b < 0x80 := fun hb => absurd h (by simp [runeLen, hb])
  rw [quote, ← List.singleton_append, pieces_append (by simp) (by simp [h]), List.flatMap_cons,
    quoteRune, if_neg hb]
  rfl

theorem quote_rune {r : List UInt8} (hne : r ≠ []) (h : runeLen r = r.length) (rest : List UInt8) :
    quote (r ++ rest) = quoteRune r ++ quote rest := by
  have hpos := List.length_pos_iff.mpr hne
  rw [quote, pieces_append hne (by rw [runeLen_append hne h]; omega), List.flatMap_cons]
  rfl

/-- How a sequence is written. -/
theorem quoteRune_cases {r : List UInt8} (hne : r ≠ []) (h : runeLen r = r.length) :
    (∃ b < 0x80, r = [b] ∧ quoteRune r = quoteAscii b) ∨
      (∃ u, (u = 0x2028 ∨ u = 0x2029) ∧ r = encodeRune u ∧ quoteRune r = escapeUnit u) ∨
      quoteRune r = r ∧ 2 ≤ r.length ∧ ∀ b ∈ r, 0x80 ≤ b := by
  rcases runeLen_cases hne h with ⟨b, hb, rfl⟩ | ⟨hlen, hbytes⟩
  · exact .inl ⟨b, hb, rfl, if_pos hb⟩
  · right
    have hquote : quoteRune r = if r = [0xE2, 0x80, 0xA8] then escapeUnit 0x2028
        else if r = [0xE2, 0x80, 0xA9] then escapeUnit 0x2029 else r := by
      rw [quoteRune]
      rintro b rfl
      exact absurd hlen (by simp)
    by_cases h₁ : r = [0xE2, 0x80, 0xA8]
    · exact .inl ⟨0x2028, .inl rfl, h₁, by rw [hquote, if_pos h₁]⟩
    · rw [if_neg h₁] at hquote
      by_cases h₂ : r = [0xE2, 0x80, 0xA9]
      · exact .inl ⟨0x2029, .inr rfl, h₂, by rw [hquote, if_pos h₂]⟩
      · rw [if_neg h₂] at hquote
        exact .inr ⟨hquote, hlen, hbytes⟩

theorem closed_quote (s : List UInt8) : Closed (quote s) := by
  induction s using rune_induction with
  | nil => exact closed_nil
  | bad b bs h ih =>
    rw [quote_bad h]
    exact closed_escapeUnit.append ih
  | rune r rest hne h ih =>
    rw [quote_rune hne h]
    refine Closed.append ?_ ih
    rcases quoteRune_cases hne h with ⟨b, -, -, hq⟩ | ⟨u, -, -, hq⟩ | ⟨hq, -, hbytes⟩
    · rw [hq]
      exact closed_quoteAscii b
    · rw [hq]
      exact closed_escapeUnit
    · rw [hq]
      refine closed_of_forall fun b hb => ?_
      have hle := hbytes b hb
      refine closed_plain ?_ ?_ ?_
      · rintro rfl; exact absurd hle (by decide)
      · exact fun hlt => absurd (UInt8.lt_of_lt_of_le hlt (by decide : (0x20 : UInt8) ≤ 0x80))
          (UInt8.not_lt.mpr hle)
      · rintro rfl; exact absurd hle (by decide)

/-- Reading one piece of a literal. -/
theorem unquote_append {p t s : List UInt8} (hne : p ≠ []) (hlen : unitLen (p ++ t) = p.length)
    (hp : decodeUnit p = some s) : unquote (p ++ t) = (unquote t).map (s ++ ·) := by
  have hpos := List.length_pos_iff.mpr hne
  rw [unquote, pieces_append hne (by rw [hlen]; omega), List.mapM_cons, hp, unquote]
  cases (pieces unitLen t).mapM decodeUnit <;> rfl

theorem escapedUnit_escapeUnit {u : ℕ} (hu : u < 0x10000) (t : List UInt8) :
    escapedUnit (escapeUnit u ++ t) = some u := by
  have hdigit : ∀ v, hexValue (hexDigit (v % 16)) = some (v % 16) :=
    fun v => hexValue_hexDigit _ (Nat.mod_lt v (by decide))
  rw [escapeUnit]
  simp only [List.cons_append, escapedUnit, and_self, if_true, hdigit]
  show some _ = some u
  congr 1
  omega

/-- Escaped characters, apart from the surrogates. -/
theorem unquote_escapeUnit {u : ℕ} (hu : u < 0x10000) (hs : u < 0xD800 ∨ 0xE000 ≤ u)
    (t : List UInt8) : unquote (escapeUnit u ++ t) = (unquote t).map (encodeRune u ++ ·) := by
  have hpair : ∀ o : Option ℕ, o.bind (decodePair u) = none := by
    intro o
    cases o with
    | none => rfl
    | some v => rw [Option.bind_some, decodePair, if_neg (by omega)]
  refine unquote_append (List.cons_ne_nil _ _) ?_ ?_
  · rw [unitLen, escapedUnit_escapeUnit hu]
    show (if (Option.bind _ _).isSome = true then 12 else 6) = 6
    rw [hpair]
    rfl
  · have hself := escapedUnit_escapeUnit hu []
    rw [List.append_nil] at hself
    rw [decodeUnit.eq_def, hself]
    simp only [hpair]
    show some (if 0xD800 ≤ u ∧ u < 0xE000 then replacement else encodeRune u) = _
    rw [if_neg (by omega)]

theorem escapedUnit_eq_none {b c : UInt8} (h : b ≠ backslash ∨ c ≠ 0x75) (s : List UInt8) :
    escapedUnit (b :: c :: s) = none := by
  unfold escapedUnit
  split
  · next heq =>
    obtain ⟨rfl, rfl, -⟩ := by simpa using heq
    rw [if_neg (by tauto)]
  · rfl

theorem unquote_escape {c : UInt8} {s : List UInt8} (h : decodeEscape c = some s)
    (t : List UInt8) : unquote ([backslash, c] ++ t) = (unquote t).map (s ++ ·) := by
  have hc : c ≠ 0x75 := by
    rintro rfl
    cases h
  have hnone := escapedUnit_eq_none (.inr hc : backslash ≠ backslash ∨ c ≠ 0x75)
  refine unquote_append (List.cons_ne_nil _ _) ?_ ?_
  · show unitLen (backslash :: c :: t) = 2
    rw [unitLen, hnone]
    rfl
  · rw [decodeUnit, hnone]
    exact h

theorem unquote_ascii {b : UInt8} (hb : b < 0x80) (hne : b ≠ backslash) (t : List UInt8) :
    unquote ([b] ++ t) = (unquote t).map ([b] ++ ·) := by
  refine unquote_append (List.cons_ne_nil _ _) ?_ ?_
  · have hnone : escapedUnit ([b] ++ t) = none := by
      cases t with
      | nil => rfl
      | cons c t => exact escapedUnit_eq_none (.inl hne) t
    rw [unitLen, hnone]
    show (if some b = some backslash then 2 else runeLen (b :: t)) = 1
    rw [if_neg (by simpa using hne)]
    simp [runeLen, hb]
  · show (if b = backslash then none else some (if b < 0x80 then [b] else replacement)) = _
    rw [if_neg hne, if_pos hb]

theorem unquote_quoteAscii {b : UInt8} (hb : b < 0x80) (t : List UInt8) :
    unquote (quoteAscii b ++ t) = (unquote t).map ([b] ++ ·) := by
  unfold quoteAscii
  split_ifs with h₁ h₂ h₃ h₄ h₅ h₆ h₇
  · refine unquote_escape ?_ t
    rcases h₁ with rfl | rfl <;> rfl
  · subst h₂; exact unquote_escape rfl t
  · subst h₃; exact unquote_escape rfl t
  · subst h₄; exact unquote_escape rfl t
  · subst h₅; exact unquote_escape rfl t
  · subst h₆; exact unquote_escape rfl t
  · have hlt : b.toNat < 0x80 := UInt8.lt_iff_toNat_lt.mp hb
    rw [unquote_escapeUnit (by omega) (by omega), encodeRune, if_pos hlt, UInt8.ofNat_toNat]
  · exact unquote_ascii hb (fun h => h₁ (.inr h)) t

theorem unquote_multibyte {r : List UInt8} (hne : r ≠ []) (h : runeLen r = r.length)
    (hlen : 2 ≤ r.length) (hbytes : ∀ b ∈ r, 0x80 ≤ b) (t : List UInt8) :
    unquote (r ++ t) = (unquote t).map (r ++ ·) := by
  obtain ⟨b, c, rest, rfl⟩ : ∃ b c rest, r = b :: c :: rest := by
    match r, hlen with
    | b :: c :: rest, _ => exact ⟨b, c, rest, rfl⟩
  have hb : b ≠ backslash := by
    rintro rfl
    exact absurd (hbytes backslash (by simp)) (by decide)
  have hnone := escapedUnit_eq_none (.inl hb : b ≠ backslash ∨ c ≠ 0x75)
  refine unquote_append hne ?_ ?_
  · rw [unitLen, List.cons_append, List.cons_append, hnone]
    show (if some b = some backslash then 2 else runeLen ((b :: c :: rest) ++ t)) = _
    rw [if_neg (by simpa using hb), runeLen_append hne h]
  · rw [decodeUnit, hnone]
    show (if b = backslash then decodeEscape c else some (b :: c :: rest)) = _
    rw [if_neg hb]

/-- **A string comes back valid.** -/
theorem unquote_quote (s : List UInt8) : unquote (quote s) = some (toValid s) := by
  induction s using rune_induction with
  | nil => rfl
  | bad b bs h ih =>
    rw [quote_bad h, unquote_escapeUnit (by decide) (by decide), ih, toValid_bad h]
    rfl
  | rune r rest hne h ih =>
    rw [quote_rune hne h, toValid_rune hne h]
    rcases quoteRune_cases hne h with ⟨b, hb, rfl, hq⟩ | ⟨u, hu, rfl, hq⟩ | ⟨hq, hlen, hbytes⟩
    · rw [hq, unquote_quoteAscii hb, ih]
      rfl
    · rw [hq, unquote_escapeUnit (by omega) (by omega), ih]
      rfl
    · rw [hq, unquote_multibyte hne h hlen hbytes, ih]
      rfl

theorem readString_quote (s rest : List UInt8) :
    readString (quote s ++ quotes :: rest) = some (toValid s, rest) := by
  have hend : readLiteral (quotes :: rest) = some ([], rest) := by
    rw [readLiteral.eq_def]
    rfl
  rw [readString, closed_quote s, hend, Option.map_some, List.append_nil]
  show (unquote (quote s)).map _ = _
  rw [unquote_quote]
  rfl

/-! ### Values, there and back -/

/-- A number ends here. -/
def Follows (rest : List UInt8) : Prop :=
  ∀ b ∈ rest.head?, isNumberByte b = false

theorem follows_nil : Follows [] := by simp [Follows]

theorem follows_cons {b : UInt8} (h : isNumberByte b = false) (rest : List UInt8) :
    Follows (b :: rest) := by
  simpa [Follows] using h

theorem isNumber_cons {lit : List UInt8} (h : isNumber lit = true) :
    ∃ b s, lit = b :: s ∧ (b = 0x2D ∨ isDigit b = true) := by
  cases lit with
  | nil => cases h
  | cons b s =>
    refine ⟨b, s, rfl, ?_⟩
    by_cases hb : b = 0x2D
    · exact .inl hb
    · rw [isNumber, if_neg hb, isUnsigned] at h
      by_contra hd
      have hnone : (b :: s).takeWhile isDigit = [] := by
        rw [List.takeWhile_cons_of_neg (fun h => hd (.inr h))]
      rw [hnone] at h
      cases h

/-- What a number does not start with. -/
theorem numberStart {b : UInt8} (h : b = 0x2D ∨ isDigit b = true) :
    isSpace b = false ∧ b ≠ 0x6E ∧ b ≠ 0x74 ∧ b ≠ 0x66 ∧ b ≠ quotes ∧ b ≠ openBracket ∧
      b ≠ openBrace ∧ b ≠ closeBracket := by
  rcases h with rfl | h
  · decide
  · have hlow : 48 ≤ b := decide_eq_true_eq.mp (Bool.and_eq_true_iff.mp h).1
    have hhigh : b ≤ 57 := decide_eq_true_eq.mp (Bool.and_eq_true_iff.mp h).2
    have hne : ∀ c : UInt8, c < 48 ∨ 57 < c → b ≠ c := by
      rintro c hc rfl
      rcases hc with hc | hc
      · exact UInt8.not_lt.mpr hlow hc
      · exact UInt8.not_lt.mpr hhigh hc
    refine ⟨?_, hne _ (by decide), hne _ (by decide), hne _ (by decide), hne _ (by decide),
      hne _ (by decide), hne _ (by decide), hne _ (by decide)⟩
    simp [isSpace, hne]

theorem readNumber_append (n : Number) {rest : List UInt8} (h : Follows rest) :
    readNumber (n.val ++ rest) = some (.num n, rest) := by
  have hnil : rest.takeWhile isNumberByte = [] := by
    cases rest with
    | nil => rfl
    | cons b rest => exact List.takeWhile_cons_of_neg (by simp [h b rfl])
  have htake : (n.val ++ rest).takeWhile isNumberByte = n.val := by
    rw [List.takeWhile_append_of_pos (List.all_eq_true.mp n.property.2), hnil, List.append_nil]
  have hdrop : (n.val ++ rest).dropWhile isNumberByte = rest := by
    have := List.takeWhile_append_dropWhile (p := isNumberByte) (l := n.val ++ rest)
    rw [htake] at this
    exact List.append_cancel_left this
  unfold readNumber
  simp only [htake, hdrop]
  rw [dif_pos n.property.1]
  rfl

/-- None of the three words. -/
theorem readScalar_cons {b : UInt8} (hn : b ≠ 0x6E) (ht : b ≠ 0x74) (hf : b ≠ 0x66)
    (s : List UInt8) : readScalar (b :: s) =
      if b = quotes then (readString s).map fun p => (.str p.1, p.2) else readNumber (b :: s) := by
  have hword : ∀ {c : UInt8} (w : List UInt8), b ≠ c → (c :: w).isPrefixOf (b :: s) = false := by
    intro c w hc
    rw [List.isPrefixOf_cons_cons, beq_eq_false_iff_ne.mpr hc.symm, Bool.false_and]
  rw [readScalar, nullText, trueText, falseText, hword _ hn, hword _ ht, hword _ hf]
  simp

theorem readScalar_num (n : Number) {rest : List UInt8} (h : Follows rest) :
    readScalar (n.val ++ rest) = some (.num n, rest) := by
  obtain ⟨b, s, heq, hb⟩ := isNumber_cons n.property.1
  obtain ⟨-, hn, ht, hf, hq, -⟩ := numberStart hb
  have hread := readNumber_append n h
  rw [heq, List.cons_append] at hread ⊢
  rw [readScalar_cons hn ht hf, if_neg hq, hread]

theorem renderString_append (s rest : List UInt8) :
    renderString s ++ rest = quotes :: (quote s ++ quotes :: rest) := by
  simp [renderString]

theorem readScalar_str (s rest : List UInt8) :
    readScalar (renderString s ++ rest) = some (.str (toValid s), rest) := by
  rw [renderString_append, readScalar_cons (by decide) (by decide) (by decide), if_pos rfl,
    readString_quote]
  rfl

theorem skipSpace_cons {b : UInt8} (h : isSpace b = false) (s : List UInt8) :
    skipSpace (b :: s) = b :: s :=
  List.dropWhile_cons_of_neg (by simp [h])

/-- The first byte of a value. -/
theorem render_cons (v : Value) :
    ∃ b s, render v = b :: s ∧ isSpace b = false ∧ b ≠ closeBracket := by
  cases v with
  | null | str s => exact ⟨_, _, by rw [render]; rfl, by decide, by decide⟩
  | bool b => cases b <;> exact ⟨_, _, by rw [render]; rfl, by decide, by decide⟩
  | num n =>
    obtain ⟨b, s, heq, hb⟩ := isNumber_cons n.property.1
    obtain ⟨hspace, -, -, -, -, -, -, hclose⟩ := numberStart hb
    exact ⟨b, s, by rw [render, heq], hspace, hclose⟩
  | arr vs | obj ms => exact ⟨_, _, by rw [render], by decide, by decide⟩

theorem length_render_pos (v : Value) : 0 < (render v).length := by
  obtain ⟨b, s, heq, -⟩ := render_cons v
  rw [heq]
  simp

/-- A value that does not start with a bracket or a brace. -/
theorem readValue_scalar {n : ℕ} {b : UInt8} {s : List UInt8} (hspace : isSpace b = false)
    (hb : b ≠ openBracket) (hc : b ≠ openBrace) :
    readValue (n + 1) (b :: s) = readScalar (b :: s) := by
  rw [readValue, skipSpace_cons hspace]
  show (if b = openBracket then _ else if b = openBrace then _ else readScalar (b :: s)) = _
  rw [if_neg hb, if_neg hc]

theorem readElements_last {n : ℕ} {s rest : List UInt8} {v : Value}
    (h : readValue n s = some (v, closeBracket :: rest)) :
    readElements (n + 1) s = some ([v], rest) := by
  rw [readElements, h]
  rfl

theorem readElements_more {n : ℕ} {s t : List UInt8} {v : Value}
    (h : readValue n s = some (v, comma :: t)) :
    readElements (n + 1) s = (readElements n t).map fun p => (v :: p.1, p.2) := by
  rw [readElements, h]
  rfl

/-- A member, after its name. -/
theorem readMembers_name (n : ℕ) (name t : List UInt8) :
    readMembers (n + 1) (renderString name ++ colon :: t) = match readValue n t with
      | none => none
      | some (v, s) =>
        match skipSpace s with
        | [] => none
        | b :: s =>
          if b = comma then (readMembers n s).map fun p => ((toValid name, v) :: p.1, p.2)
          else if b = closeBrace then some ([(toValid name, v)], s)
          else none := by
  rw [renderString_append, readMembers, skipSpace_cons (by decide), List.head?_cons,
    if_pos rfl, List.tail_cons, readString_quote]
  rfl

theorem readMembers_last {n : ℕ} {name t rest : List UInt8} {v : Value}
    (h : readValue n t = some (v, closeBrace :: rest)) :
    readMembers (n + 1) (renderString name ++ colon :: t) = some ([(toValid name, v)], rest) := by
  rw [readMembers_name, h]
  rfl

theorem readMembers_more {n : ℕ} {name t u : List UInt8} {v : Value}
    (h : readValue n t = some (v, comma :: u)) :
    readMembers (n + 1) (renderString name ++ colon :: t) =
      (readMembers n u).map fun p => ((toValid name, v) :: p.1, p.2) := by
  rw [readMembers_name, h]
  rfl

theorem renderElements_cons (v : Value) (vs : List Value) :
    ∃ t, renderElements (v :: vs) = render v ++ t := by
  cases vs with
  | nil => exact ⟨[], by rw [renderElements, List.append_nil]⟩
  | cons w vs => exact ⟨_, by rw [renderElements]⟩

theorem renderMembers_cons (m : List UInt8 × Value) (ms : List (List UInt8 × Value)) :
    ∃ t, renderMembers (m :: ms) = quotes :: t := by
  cases ms with
  | nil | cons w vs => exact ⟨_, by rw [renderMembers, renderString_append]⟩

/-- An array that is not empty. -/
theorem readValue_arr {n : ℕ} {v : Value} {vs ws : List Value} {rest : List UInt8}
    (h : readElements n (renderElements (v :: vs) ++ closeBracket :: rest) = some (ws, rest)) :
    readValue (n + 1) (render (.arr (v :: vs)) ++ rest) = some (.arr ws, rest) := by
  obtain ⟨t, ht⟩ := renderElements_cons v vs
  obtain ⟨b, s, hv, hspace, hclose⟩ := render_cons v
  have happ : render (.arr (v :: vs)) ++ rest =
      openBracket :: (renderElements (v :: vs) ++ closeBracket :: rest) := by
    simp [render]
  have hhead : (skipSpace (renderElements (v :: vs) ++ closeBracket :: rest)).head?
      ≠ some closeBracket := by
    rw [ht, hv, List.cons_append, List.cons_append, skipSpace_cons hspace]
    simpa using hclose
  rw [happ, readValue, skipSpace_cons (by decide)]
  simp only [if_true, if_neg hhead, h, Option.map_some]

/-- An object that is not empty. -/
theorem readValue_obj {n : ℕ} {m : List UInt8 × Value} {ms ns : List (List UInt8 × Value)}
    {rest : List UInt8}
    (h : readMembers n (renderMembers (m :: ms) ++ closeBrace :: rest) = some (ns, rest)) :
    readValue (n + 1) (render (.obj (m :: ms)) ++ rest) = some (.obj ns, rest) := by
  obtain ⟨t, ht⟩ := renderMembers_cons m ms
  have happ : render (.obj (m :: ms)) ++ rest =
      openBrace :: (renderMembers (m :: ms) ++ closeBrace :: rest) := by
    simp [render]
  have hhead : (skipSpace (renderMembers (m :: ms) ++ closeBrace :: rest)).head?
      ≠ some closeBrace := by
    rw [ht, List.cons_append, skipSpace_cons (by decide), List.head?_cons]
    decide
  rw [happ, readValue, skipSpace_cons (by decide)]
  simp only [if_neg (show openBrace ≠ openBracket by decide), if_true, if_neg hhead, h,
    Option.map_some]

mutual

/-- Reading a value that was written. The induction is on the value, and the length of the text is
enough for every part of it. -/
theorem readValue_render : ∀ (v : Value) {n : ℕ} {rest : List UInt8},
    (render v).length ≤ n → Follows rest → readValue n (render v ++ rest) = some (clean v, rest)
  | v, 0, rest, hn, _ => absurd hn (Nat.not_le_of_lt (length_render_pos v))
  | .null, n + 1, rest, _, _ => by
    rw [render, clean, nullText]
    exact readValue_scalar (by decide) (by decide) (by decide)
  | .bool true, n + 1, rest, _, _ => by
    rw [render, clean, trueText]
    exact readValue_scalar (by decide) (by decide) (by decide)
  | .bool false, n + 1, rest, _, _ => by
    rw [render, clean, falseText]
    exact readValue_scalar (by decide) (by decide) (by decide)
  | .num m, n + 1, rest, _, hrest => by
    obtain ⟨b, s, heq, hb⟩ := isNumber_cons m.property.1
    obtain ⟨hspace, -, -, -, -, hopen, hbrace, -⟩ := numberStart hb
    have hread := readScalar_num m hrest
    rw [render, clean, ← hread, heq, List.cons_append]
    exact readValue_scalar hspace hopen hbrace
  | .str s, n + 1, rest, _, _ => by
    rw [render, clean, ← readScalar_str, renderString_append]
    exact readValue_scalar (by decide) (by decide) (by decide)
  | .arr [], n + 1, rest, _, _ => by
    rw [render, clean, renderElements, cleanElements]
    rfl
  | .arr (v :: vs), n + 1, rest, hn, _ => by
    rw [clean]
    refine readValue_arr (readElements_render (v :: vs) (by simp) ?_)
    rw [render, List.length_cons, List.length_append, List.length_singleton] at hn
    omega
  | .obj [], n + 1, rest, _, _ => by
    rw [render, clean, renderMembers, cleanMembers]
    rfl
  | .obj (m :: ms), n + 1, rest, hn, _ => by
    rw [clean]
    refine readValue_obj (readMembers_render (m :: ms) (by simp) ?_)
    rw [render, List.length_cons, List.length_append, List.length_singleton] at hn
    omega

theorem readElements_render : ∀ (vs : List Value) {n : ℕ} {rest : List UInt8}, vs ≠ [] →
    (renderElements vs).length < n →
    readElements n (renderElements vs ++ closeBracket :: rest) = some (cleanElements vs, rest)
  | [], _, _, hne, _ => absurd rfl hne
  | [v], n + 1, rest, _, hn => by
    rw [renderElements] at hn ⊢
    rw [cleanElements, cleanElements]
    exact readElements_last
      (readValue_render v (Nat.lt_succ_iff.mp hn) (follows_cons (by decide) rest))
  | v :: w :: vs, n + 1, rest, _, hn => by
    rw [renderElements, List.length_append, List.length_cons] at hn
    have htail : readElements n (renderElements (w :: vs) ++ closeBracket :: rest) =
        some (cleanElements (w :: vs), rest) := readElements_render (w :: vs) (by simp) (by omega)
    rw [renderElements, cleanElements, List.append_assoc, List.cons_append,
      readElements_more (readValue_render v (by omega) (follows_cons (by decide) _)), htail]
    rfl

theorem readMembers_render : ∀ (ms : List (List UInt8 × Value)) {n : ℕ} {rest : List UInt8},
    ms ≠ [] → (renderMembers ms).length < n →
    readMembers n (renderMembers ms ++ closeBrace :: rest) = some (cleanMembers ms, rest)
  | [], _, _, hne, _ => absurd rfl hne
  | [(name, v)], n + 1, rest, _, hn => by
    rw [renderMembers, List.length_append, List.length_cons] at hn
    rw [renderMembers, cleanMembers, cleanMembers, List.append_assoc, List.cons_append]
    exact readMembers_last (readValue_render v (by omega) (follows_cons (by decide) rest))
  | (name, v) :: m :: ms, n + 1, rest, _, hn => by
    rw [renderMembers, List.length_append, List.length_cons, List.length_append,
      List.length_cons] at hn
    have htail : readMembers n (renderMembers (m :: ms) ++ closeBrace :: rest) =
        some (cleanMembers (m :: ms), rest) := readMembers_render (m :: ms) (by simp) (by omega)
    rw [renderMembers, cleanMembers, List.append_assoc, List.cons_append, List.append_assoc,
      List.cons_append, readMembers_more (readValue_render v (by omega)
        (follows_cons (by decide) _)), htail]
    rfl

end

/-- **A value that is written is read back, with its strings made valid.** -/
theorem parse_render (v : Value) : parse (render v) = some (clean v) := by
  have hread := readValue_render v (Nat.le_succ (render v).length) follows_nil
  rw [List.append_nil] at hread
  rw [parse, hread]
  rfl

theorem cleanElements_eq_map (vs : List Value) : cleanElements vs = vs.map clean := by
  induction vs with
  | nil => rw [cleanElements, List.map_nil]
  | cons v vs ih => rw [cleanElements, List.map_cons, ih]

theorem cleanMembers_eq_map (ms : List (List UInt8 × Value)) :
    cleanMembers ms = ms.map fun m => (toValid m.1, clean m.2) := by
  induction ms with
  | nil => rw [cleanMembers, List.map_nil]
  | cons m ms ih => rw [cleanMembers, List.map_cons, ih]

/-! ### Integers -/

theorem isUnsigned_natText (n : ℕ) : isUnsigned (natText n) = true := by
  have hall := all_isDigit_natText n
  have htake : (natText n).takeWhile isDigit = natText n :=
    List.takeWhile_eq_self_iff.mpr (List.all_eq_true.mp hall)
  have hdrop : (natText n).dropWhile isDigit = [] :=
    List.dropWhile_eq_nil_iff.mpr (List.all_eq_true.mp hall)
  rw [isUnsigned, htake, hdrop]
  rcases natText_cases n with h | ⟨d, ds, h, -, hd, -⟩
  · rw [h]
    rfl
  · rw [h]
    simp [hd, isFraction]

theorem isNumber_intText (i : ℤ) :
    isNumber (intText i) = true ∧ (intText i).all isNumberByte = true := by
  have hbytes : ∀ n, (natText n).all isNumberByte = true := by
    intro n
    refine List.all_eq_true.mpr fun b hb => ?_
    simp [isNumberByte, List.all_eq_true.mp (all_isDigit_natText n) b hb]
  rw [intText]
  split
  · refine ⟨?_, ?_⟩
    · rw [isNumber, if_pos rfl, isUnsigned_natText]
    · rw [List.all_cons, hbytes, Bool.and_true]
      rfl
  · refine ⟨?_, hbytes _⟩
    have hunsigned := isUnsigned_natText i.natAbs
    rcases natText_cases i.natAbs with h | ⟨d, ds, h, hd, -⟩
    · rw [h]
      rfl
    · have hsign : d ≠ 0x2D := by
        rintro rfl
        exact absurd hd (by decide)
      rw [h] at hunsigned ⊢
      rw [isNumber, if_neg hsign, hunsigned]

/-- An integer. -/
def Value.int (i : ℤ) : Value :=
  .num ⟨intText i, isNumber_intText i⟩

/-- The integer in a number that has neither a fraction nor an exponent. -/
def Value.toInt : Value → Option ℤ
  | .num n => readInt n.val
  | _ => none

@[simp] theorem toInt_int (i : ℤ) : (Value.int i).toInt = some i :=
  readInt_intText i

end Json
end Framework
