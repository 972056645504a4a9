import Piecework.Text.Integer

/-!
# Percent encoding

Bytes in a URL that are written as a percent sign and two hexadecimal digits.  A
percent sign that no two digits follow stands for itself.  Each part of a URL has
characters of its own that must be written that way.
-/

namespace Piecework.Http

/-- The value of a hexadecimal digit, in either case. -/
def hexDigit? (c : Char) : Option Nat :=
  if '0' ≤ c ∧ c ≤ '9' then some (c.toNat - '0'.toNat)
  else if 'a' ≤ c ∧ c ≤ 'f' then some (c.toNat - 'a'.toNat + 10)
  else if 'A' ≤ c ∧ c ≤ 'F' then some (c.toNat - 'A'.toNat + 10)
  else none

/-- The ASCII text in a part of a path.  `none` when a byte of it is not ASCII. -/
def decodeAscii? : List Char → Option (List Char)
  | [] => some []
  | '%' :: a :: b :: rest =>
    match hexDigit? a, hexDigit? b with
    | some high, some low =>
      if high < 8 then (decodeAscii? rest).map (Char.ofNat (16 * high + low) :: ·) else none
    | _, _ => (decodeAscii? (a :: b :: rest)).map ('%' :: ·)
  | c :: rest => if c.toNat < 0x80 then (decodeAscii? rest).map (c :: ·) else none

/-- The identifier in a part of a path. -/
def identifier? (part : String) : Option Int :=
  (decodeAscii? part.toList).bind (Text.integer? Text.minId Text.maxId)

/-- A hexadecimal digit in upper case. -/
def hexDigitChar (n : Nat) : Char :=
  ((Nat.toDigits 16 n).headD '0').toUpper

/-- A byte behind a percent sign. -/
def encodeByte (b : UInt8) : List Char :=
  ['%', hexDigitChar (b.toNat / 16), hexDigitChar (b.toNat % 16)]

/-- Whether a character is visible ASCII and none of the given ones. -/
def isVisibleExcept (reserved : List Char) (c : Char) : Bool :=
  0x20 < c.toNat && c.toNat < 0x7F && reserved.all (· != c)

/-- Whether a character may stand in a path as it is. -/
def isPathChar : Char → Bool :=
  isVisibleExcept ['"', '#', '<', '>', '?', '\x60', '\x7b', '\x7d']

/-- Whether a character may stand in a query as it is. -/
def isQueryChar : Char → Bool :=
  isVisibleExcept ['"', '#', '<', '>', '\'']

/-- Whether a character may stand in a fragment as it is. -/
def isFragmentChar : Char → Bool :=
  isVisibleExcept ['"', '<', '>', '\x60']

/-- A text in which every character that may not stand as it is is encoded. -/
def encode (plain : Char → Bool) (cs : List Char) : String :=
  String.ofList <| cs.flatMap fun c =>
    if plain c then [c] else (String.singleton c).toUTF8.toList.flatMap encodeByte

end Piecework.Http
