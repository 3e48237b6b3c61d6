import Validation.Text.Digit

/-!
# JSON documents

A document as it is written: numbers and texts are kept in their spelling, and objects keep all
their entries in order. What a spelling stands for, and whether it can be represented, is up to
the reader of the document, so a part that nobody reads may hold any number.

* `Json.parse?`: the document of a text, which has to be all of it.
* `Json.decode?`: the text that a spelling between quotes stands for.
-/

namespace Validation

open Text

/-- The spelling of a number: its digits, and those of the fraction and the exponent if there is
one. -/
structure JsonNumber where
  negative : Bool
  whole : List Char
  fraction : List Char
  /-- Whether the exponent is negative, and its digits. -/
  exponent : Option (Bool × List Char)

/-- A document as it is written. -/
inductive Json where
  | null
  | bool (value : Bool)
  | number (spelling : JsonNumber)
  /-- A text by its spelling between the quotes. -/
  | text (spelling : List Char)
  | array (items : List Json)
  | object (entries : List (List Char × Json))

namespace Json

/-- Whether a character separates the parts of a document. -/
def isSeparator (c : Char) : Bool := c == ' ' || c == '\n' || c == '\t' || c == '\r'

/-- The text behind the separators at its start. -/
def skip (cs : List Char) : List Char := cs.dropWhile isSeparator

/-- The value of a hexadecimal digit. -/
def hexDigit? (c : Char) : Option Nat :=
  if isAsciiDigit c then some (c.toNat - '0'.toNat)
  else if 'a' ≤ c ∧ c ≤ 'f' then some (c.toNat - 'a'.toNat + 10)
  else if 'A' ≤ c ∧ c ≤ 'F' then some (c.toNat - 'A'.toNat + 10)
  else none

/-- The value of four hexadecimal digits. -/
def hexUnit? (a b c d : Char) : Option Nat := do
  return 4096 * (← hexDigit? a) + 256 * (← hexDigit? b) + 16 * (← hexDigit? c) + (← hexDigit? d)

/-- What a letter behind a backslash stands for, apart from `u`. -/
def escape? (c : Char) : Option Char :=
  match c with
  | '"' | '\\' | '/' => some c
  | 'b' => some '\x08'
  | 'f' => some '\x0c'
  | 'n' => some '\n'
  | 'r' => some '\r'
  | 't' => some '\t'
  | _ => none

/-- The spelling of a text up to the closing quote, and what follows it. Controls have to be
escaped. -/
def readText? : List Char → Option (List Char × List Char)
  | [] => none
  | '"' :: rest => some ([], rest)
  | '\\' :: 'u' :: a :: b :: c :: d :: rest =>
    if (hexUnit? a b c d).isSome then
      (readText? rest).map fun (spelling, rest) =>
        ('\\' :: 'u' :: a :: b :: c :: d :: spelling, rest)
    else none
  | '\\' :: e :: rest =>
    if (escape? e).isSome then
      (readText? rest).map fun (spelling, rest) => ('\\' :: e :: spelling, rest)
    else none
  | c :: rest =>
    if c = '\\' ∨ c.toNat < 0x20 then none
    else (readText? rest).map fun (spelling, rest) => (c :: spelling, rest)

/-- The text that a spelling stands for. Code points beyond the first plane are spelt as two
units, and half of such a pair stands for nothing. -/
def decode? : List Char → Option (List Char)
  | [] => some []
  | '\\' :: 'u' :: a :: b :: c :: d :: rest => do
    let high ← hexUnit? a b c d
    if 0xDC00 ≤ high ∧ high ≤ 0xDFFF then none
    else if 0xD800 ≤ high ∧ high ≤ 0xDBFF then
      match rest with
      | '\\' :: 'u' :: a :: b :: c :: d :: rest => do
        let low ← hexUnit? a b c d
        if 0xDC00 ≤ low ∧ low ≤ 0xDFFF then
          return Char.ofNat (0x10000 + 0x400 * (high - 0xD800) + (low - 0xDC00)) :: (← decode? rest)
        else none
      | _ => none
    else return Char.ofNat high :: (← decode? rest)
  | '\\' :: e :: rest => do return (← escape? e) :: (← decode? rest)
  | c :: rest => do return c :: (← decode? rest)

/-- The exponent of a number, if one is written, and what follows it. -/
def readExponent? (cs : List Char) : Option (Option (Bool × List Char) × List Char) :=
  match cs with
  | e :: rest =>
    if e = 'e' ∨ e = 'E' then
      let (negative, rest) := match rest with
        | '-' :: rest => (true, rest)
        | '+' :: rest => (false, rest)
        | rest => (false, rest)
      let digits := rest.takeWhile isAsciiDigit
      if digits.isEmpty then none
      else some (some (negative, digits), rest.dropWhile isAsciiDigit)
    else some (none, cs)
  | [] => some (none, [])

/-- The spelling of a number, and what follows it. A zero stands alone before the point. -/
def readNumber? (cs : List Char) : Option (JsonNumber × List Char) := do
  let (negative, rest) := match cs with
    | '-' :: rest => (true, rest)
    | rest => (false, rest)
  let whole := rest.takeWhile isAsciiDigit
  let rest := rest.dropWhile isAsciiDigit
  if whole.isEmpty || (whole.head? == some '0' && 1 < whole.length) then none
  else
    let (fraction, rest) ← match rest with
      | '.' :: rest =>
        let fraction := rest.takeWhile isAsciiDigit
        if fraction.isEmpty then none else some (fraction, rest.dropWhile isAsciiDigit)
      | rest => some ([], rest)
    let (exponent, rest) ← readExponent? rest
    return (⟨negative, whole, fraction, exponent⟩, rest)

mutual

/-- A document at the start of a text, and what follows it. `fuel` bounds the number of parts. -/
def readValue? : Nat → List Char → Option (Json × List Char)
  | 0, _ => none
  | fuel + 1, cs =>
    match skip cs with
    | 'n' :: 'u' :: 'l' :: 'l' :: rest => some (null, rest)
    | 't' :: 'r' :: 'u' :: 'e' :: rest => some (bool true, rest)
    | 'f' :: 'a' :: 'l' :: 's' :: 'e' :: rest => some (bool false, rest)
    | '"' :: rest => (readText? rest).map fun (spelling, rest) => (text spelling, rest)
    | '[' :: rest =>
      match skip rest with
      | ']' :: rest => some (array [], rest)
      | rest => (readItems? fuel rest).map fun (items, rest) => (array items, rest)
    | '{' :: rest =>
      match skip rest with
      | '}' :: rest => some (object [], rest)
      | rest => (readEntries? fuel rest).map fun (entries, rest) => (object entries, rest)
    | rest => (readNumber? rest).map fun (spelling, rest) => (number spelling, rest)

/-- The items of an array that is not empty, up to its closing bracket. -/
def readItems? : Nat → List Char → Option (List Json × List Char)
  | 0, _ => none
  | fuel + 1, cs => do
    let (item, rest) ← readValue? fuel cs
    match skip rest with
    | ',' :: rest =>
      let (items, rest) ← readItems? fuel rest
      return (item :: items, rest)
    | ']' :: rest => return ([item], rest)
    | _ => none

/-- The entries of an object that is not empty, up to its closing brace. -/
def readEntries? : Nat → List Char → Option (List (List Char × Json) × List Char)
  | 0, _ => none
  | fuel + 1, cs => do
    match skip cs with
    | '"' :: rest =>
      let (key, rest) ← readText? rest
      match skip rest with
      | ':' :: rest =>
        let (value, rest) ← readValue? fuel rest
        match skip rest with
        | ',' :: rest =>
          let (entries, rest) ← readEntries? fuel rest
          return ((key, value) :: entries, rest)
        | '}' :: rest => return ([(key, value)], rest)
        | _ => none
      | _ => none
    | _ => none

end

/-- The document of a text. -/
def parse? (s : String) : Option Json :=
  let cs := s.toList
  match readValue? (cs.length + 1) cs with
  | some (document, rest) => if (skip rest).isEmpty then some document else none
  | none => none

end Json

end Validation
