import Mathlib.Data.List.Basic

/-!
# Text in messages

How texts from a disk or from a user stand in messages.
-/

namespace DiskNexus.Text

/-- The character of a unit that is not in a pair; a surrogate alone is replaced. -/
def unitChar (u : ℕ) : Char := Char.ofNat (if 0xD800 ≤ u ∧ u < 0xE000 then 0xFFFD else u)

/-- `utf16.Decode`. -/
def utf16Chars : List ℕ → List Char
  | [] => []
  | [u] => [unitChar u]
  | u :: v :: units =>
    if (0xD800 ≤ u ∧ u < 0xDC00) ∧ 0xDC00 ≤ v ∧ v < 0xE000 then
      Char.ofNat (0x10000 + (u - 0xD800) * 0x400 + (v - 0xDC00)) :: utf16Chars units
    else unitChar u :: utf16Chars (v :: units)

/-- The text of UTF-16 units. -/
def utf16Decode (units : List ℕ) : String := String.ofList (utf16Chars units)

/-- A quoted character. Beyond ASCII every character is taken for a printable one. -/
def quoteChar (c : Char) : List Char :=
  let code := c.toNat
  let slash := Char.ofNat 92
  if code = 34 ∨ code = 92 then [slash, c]
  else if 7 ≤ code ∧ code ≤ 13 then [slash, "abtnvfr".toList.getD (code - 7) c]
  else if code < 32 ∨ code = 127 then [slash, 'x', (code / 16).digitChar, (code % 16).digitChar]
  else [c]

/-- The verb `%q`. -/
def quote (text : String) : String :=
  String.ofList (Char.ofNat 34 :: text.toList.flatMap quoteChar ++ [Char.ofNat 34])

end DiskNexus.Text
