import Validation.Text.Hidden

/-!
# Quoted texts

A text between double quotes, with every character that would be lost or misread written as an
escape: quote, backslash, the common controls by a letter, and all other hidden characters by
their code point in hexadecimal.
-/

namespace Validation.Text

/-- The digits of a number in base sixteen, without leading zeros. -/
def hexadecimal (n : Nat) : List Char := Nat.toDigits 16 n

/-- One character as it stands inside quotes. -/
def escaped (c : Char) : List Char :=
  if c = '"' then ['\\', '"']
  else if c = '\\' then ['\\', '\\']
  else if c = '\n' then ['\\', 'n']
  else if c = '\r' then ['\\', 'r']
  else if c = '\t' then ['\\', 't']
  else if c = '\x00' then ['\\', '0']
  else if isHidden c then ['\\', 'u', '{'] ++ hexadecimal c.toNat ++ ['}']
  else [c]

/-- A text between double quotes, with escapes where a character does not stand for itself. -/
def quoted (s : String) : String :=
  String.ofList ('"' :: s.toList.flatMap escaped ++ ['"'])

end Validation.Text
