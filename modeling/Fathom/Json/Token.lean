/-!
# The tokens of JSON text

`Token.ofText?` cuts a text into the tokens of strict JSON: no byte order mark, no comments, no
leading zeros, no raw control characters. A string may write half of a surrogate pair by an escape;
such a string is a token, but it has no text. A number is kept as far as it is written as an
integer.
-/

namespace Fathom.Json

/-- A token of JSON text. -/
inductive Token
  | openArray
  | closeArray
  | openObject
  | closeObject
  | comma
  | colon
  | null
  | bool (value : Bool)
  /-- A number; its value if it is written as an integer, minus zero excluded. -/
  | number (integer : Option Int)
  /-- A string; its text unless an escape leaves a surrogate without its partner. -/
  | string (text : Option String)

/-! ## Strings -/

/-- A piece of a string: a character, or the UTF-16 unit that an escape gives by number. -/
inductive Piece
  | char (c : Char)
  | unit (code : Nat)

/-- The value of a hexadecimal digit. -/
def hexDigit? (c : Char) : Option Nat :=
  if '0' ≤ c ∧ c ≤ '9' then some (c.toNat - '0'.toNat)
  else if 'a' ≤ c ∧ c ≤ 'f' then some (c.toNat - 'a'.toNat + 10)
  else if 'A' ≤ c ∧ c ≤ 'F' then some (c.toNat - 'A'.toNat + 10)
  else none

/-- The unit of four hexadecimal digits. -/
def hexUnit? (a b c d : Char) : Option Nat := do
  let digits ← [a, b, c, d].mapM hexDigit?
  pure (digits.foldl (fun code digit => 16 * code + digit) 0)

/-- The character that a backslash and one letter stand for. -/
def escaped? : Char → Option Char
  | '"' => some '"'
  | '\\' => some '\\'
  | '/' => some '/'
  | 'b' => some '\x08'
  | 'f' => some '\x0c'
  | 'n' => some '\n'
  | 'r' => some '\r'
  | 't' => some '\t'
  | _ => none

/-- The pieces up to the closing quote, and what follows it. -/
def scanString (read : List Piece) : List Char → Option (List Piece × List Char)
  | '"' :: rest => some (read.reverse, rest)
  | '\\' :: 'u' :: a :: b :: c :: d :: rest =>
    match hexUnit? a b c d with
    | none => none
    | some code => scanString (.unit code :: read) rest
  | '\\' :: letter :: rest =>
    match escaped? letter with
    | none => none
    | some c => scanString (.char c :: read) rest
  | c :: rest => if c.toNat < 32 then none else scanString (.char c :: read) rest
  | [] => none

/-- The unit opens a surrogate pair. -/
def isHighSurrogate (code : Nat) : Bool := decide (0xD800 ≤ code) && decide (code < 0xDC00)

/-- The unit closes a surrogate pair. -/
def isLowSurrogate (code : Nat) : Bool := decide (0xDC00 ≤ code) && decide (code < 0xE000)

/-- The characters of the pieces, where the units of a pair make one character. -/
def assemble (read : List Char) : List Piece → Option (List Char)
  | [] => some read.reverse
  | .char c :: more => assemble (c :: read) more
  | .unit high :: .unit low :: more =>
    if isHighSurrogate high && isLowSurrogate low then
      assemble (Char.ofNat (0x10000 + (high - 0xD800) * 0x400 + (low - 0xDC00)) :: read) more
    else if isHighSurrogate high || isLowSurrogate high then none
    else assemble (Char.ofNat high :: read) (.unit low :: more)
  | .unit code :: more =>
    if isHighSurrogate code || isLowSurrogate code then none
    else assemble (Char.ofNat code :: read) more

/-! ## Numbers -/

/-- The value of a run of decimal digits. -/
def decimalValue (digits : List Char) : Nat :=
  digits.foldl (fun value c => 10 * value + (c.toNat - '0'.toNat)) 0

/-- A run of at least one digit, and what follows it. -/
def scanDigits (text : List Char) : Option (List Char × List Char) :=
  match text.takeWhile Char.isDigit with
  | [] => none
  | digits => some (digits, text.dropWhile Char.isDigit)

/-- What follows the fraction, and whether there is one. -/
def scanFraction : List Char → Option (Bool × List Char)
  | '.' :: rest => (scanDigits rest).map fun (_, rest) => (true, rest)
  | rest => some (false, rest)

/-- What follows the exponent, and whether there is one. -/
def scanExponent : List Char → Option (Bool × List Char)
  | 'e' :: '+' :: rest | 'E' :: '+' :: rest
  | 'e' :: '-' :: rest | 'E' :: '-' :: rest
  | 'e' :: rest | 'E' :: rest => (scanDigits rest).map fun (_, rest) => (true, rest)
  | rest => some (false, rest)

/-- A number without its sign. -/
def scanMagnitude (negative : Bool) (text : List Char) : Option (Option Int × List Char) := do
  let (digits, rest) ← scanDigits text
  if digits.head? = some '0' ∧ digits.length ≠ 1 then none
  let (fraction, rest) ← scanFraction rest
  let (exponent, rest) ← scanExponent rest
  let value := decimalValue digits
  if fraction || exponent || (negative && value == 0) then some (none, rest)
  else some (some (if negative then -(value : Int) else value), rest)

/-! ## All tokens -/

/-- The token that begins with `c`, and what follows it. -/
def Token.next? (c : Char) (rest : List Char) : Option (Token × List Char) :=
  match c, rest with
  | '[', rest => some (.openArray, rest)
  | ']', rest => some (.closeArray, rest)
  | '\x7b', rest => some (.openObject, rest)
  | '\x7d', rest => some (.closeObject, rest)
  | ',', rest => some (.comma, rest)
  | ':', rest => some (.colon, rest)
  | 'n', 'u' :: 'l' :: 'l' :: rest => some (.null, rest)
  | 't', 'r' :: 'u' :: 'e' :: rest => some (.bool true, rest)
  | 'f', 'a' :: 'l' :: 's' :: 'e' :: rest => some (.bool false, rest)
  | '"', rest => (scanString [] rest).map fun (pieces, rest) =>
    (.string ((assemble [] pieces).map String.ofList), rest)
  | '-', rest => (scanMagnitude true rest).map fun (integer, rest) => (.number integer, rest)
  | c, rest => (scanMagnitude false (c :: rest)).map fun (integer, rest) => (.number integer, rest)

/-- The blanks that may stand between tokens. -/
def isBlank (c : Char) : Bool := c == ' ' || c == '\t' || c == '\n' || c == '\r'

theorem scanString_length {read pieces : List Piece} {text rest : List Char}
    (h : scanString read text = some (pieces, rest)) : rest.length < text.length := by
  fun_induction scanString read text <;> simp_all <;> omega

theorem scanDigits_length {text digits rest : List Char}
    (h : scanDigits text = some (digits, rest)) : rest.length < text.length := by
  unfold scanDigits at h
  split at h
  · simp at h
  · next hne =>
    simp only [Option.some.injEq, Prod.mk.injEq] at h
    have hs := congrArg List.length
      (List.takeWhile_append_dropWhile (p := Char.isDigit) (l := text))
    have hpos := List.length_pos_iff.2 hne
    simp only [List.length_append] at hs
    rw [← h.2]
    omega

theorem scanFraction_length {text rest : List Char} {b : Bool}
    (h : scanFraction text = some (b, rest)) : rest.length ≤ text.length := by
  unfold scanFraction at h
  split at h
  · obtain ⟨⟨d, r⟩, hd, he⟩ := Option.map_eq_some_iff.1 h
    have := scanDigits_length hd
    simp_all
    omega
  · simp_all

theorem scanExponent_length {text rest : List Char} {b : Bool}
    (h : scanExponent text = some (b, rest)) : rest.length ≤ text.length := by
  unfold scanExponent at h
  split at h
  case h_7 => simp_all
  all_goals
    obtain ⟨⟨d, r⟩, hd, he⟩ := Option.map_eq_some_iff.1 h
    have := scanDigits_length hd
    simp_all
    omega

theorem scanMagnitude_length {text rest : List Char} {negative : Bool} {integer : Option Int}
    (h : scanMagnitude negative text = some (integer, rest)) : rest.length < text.length := by
  unfold scanMagnitude at h
  simp only [Option.bind_eq_bind, Option.bind_eq_some_iff, Prod.exists] at h
  obtain ⟨digits, r₁, h₁, h⟩ := h
  have l₁ := scanDigits_length h₁
  split at h
  · simp at h
  · simp only [Option.bind_eq_some_iff, Prod.exists] at h
    obtain ⟨f, r₂, h₂, e, r₃, h₃, h⟩ := h
    have l₂ := scanFraction_length h₂
    have l₃ := scanExponent_length h₃
    split at h <;> simp_all <;> omega

theorem Token.next?_length {c : Char} {text rest : List Char} {token : Token}
    (h : Token.next? c text = some (token, rest)) : rest.length ≤ text.length := by
  unfold Token.next? at h
  split at h
  case h_10 =>
    obtain ⟨⟨p, r⟩, hp, he⟩ := Option.map_eq_some_iff.1 h
    obtain ⟨-, rfl⟩ := Prod.mk.inj he
    exact Nat.le_of_lt (scanString_length hp)
  case h_11 =>
    obtain ⟨⟨p, r⟩, hp, he⟩ := Option.map_eq_some_iff.1 h
    obtain ⟨-, rfl⟩ := Prod.mk.inj he
    exact Nat.le_of_lt (scanMagnitude_length hp)
  case h_12 =>
    obtain ⟨⟨p, r⟩, hp, he⟩ := Option.map_eq_some_iff.1 h
    obtain ⟨-, rfl⟩ := Prod.mk.inj he
    exact Nat.le_of_lt_succ (scanMagnitude_length hp)
  all_goals simp_all <;> omega

/-- The tokens of a text, after those already read (newest first). -/
def Token.readAll (read : List Token) (text : List Char) : Option (List Token) :=
  match text with
  | [] => some read.reverse
  | c :: rest =>
    if isBlank c then readAll read rest
    else
      match _h : Token.next? c rest with
      | none => none
      | some (token, rest) => readAll (token :: read) rest
termination_by text.length
decreasing_by
  · simp
  · have := Token.next?_length _h
    simp
    omega

/-- The tokens of a text. -/
def Token.ofText? (text : String) : Option (List Token) := Token.readAll [] text.toList

end Fathom.Json
