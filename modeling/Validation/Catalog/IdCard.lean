import Validation.Kind
import Validation.Text.Digit

/-!
# Identity card numbers

The card numbers of three regions, each with a form and a check sum.

The form of a number is a pattern of characters in which a digit may be one of any script, while
dates and sums are taken from the number's UTF-8 octets. For a number of ASCII characters the two
views agree; any other octet counts by its distance from `0` and spoils the sum or the date.

* `Region.accepts`: whether a text is a card number of a region.
* `Builtin.idCard`: the kind of constraint.
-/

namespace Validation

open Text

/-- A region that issues identity cards. -/
inductive Region where
  | mainland
  | taiwan
  | hongKong
deriving DecidableEq

namespace IdCard

/-- The octets of a text as numbers. -/
def octets (cs : List Char) : List Nat := cs.flatMap fun c =>
  (String.utf8EncodeChar c).map (·.toNat)

/-- The digit that an octet stands for. -/
def digit (octet : Nat) : Nat := octet - '0'.toNat

/-- The number that a run of octets stands for. -/
def number (os : List Nat) : Nat := os.foldl (fun n o => 10 * n + digit o) 0

/-- The number that the octets from one place up to another stand for. -/
def numberAt (os : List Nat) (start stop : Nat) : Nat := number ((os.drop start).take (stop - start))

/-- The sum of the digits times their weights, as far as both go. -/
def weighted : List Nat → List Nat → Nat
  | o :: os, weight :: weights => digit o * weight + weighted os weights
  | _, _ => 0

/-- Whether a year is a leap year of the Gregorian calendar. -/
def isLeap (year : Nat) : Bool := (year % 4 == 0 && year % 100 != 0) || year % 400 == 0

/-- The number of days of a month; none for a number that is no month. -/
def daysOf (year month : Nat) : Nat :=
  if month ∈ [1, 3, 5, 7, 8, 10, 12] then 31
  else if month ∈ [4, 6, 9, 11] then 30
  else if month = 2 then (if isLeap year then 29 else 28)
  else 0

/-- Whether a date is one of the Gregorian calendar from 1800 on. -/
def isDate (year month day : Nat) : Bool := 1800 ≤ year && 1 ≤ day && day ≤ daysOf year month

/-- The weights of the first seventeen digits of a mainland number. -/
def mainlandWeights : List Nat := [7, 9, 10, 5, 8, 4, 2, 1, 6, 3, 7, 9, 10, 5, 8, 4, 2]

/-- The check characters of a mainland number, by the remainder of its sum. -/
def mainlandChecks : List Char := ['1', '0', 'X', '9', '8', '7', '6', '5', '4', '3', '2']

/-- An octet with a small ASCII letter made a capital. -/
def upper (octet : Nat) : Nat := if 97 ≤ octet ∧ octet ≤ 122 then octet - 32 else octet

/-- The form of a mainland number: seventeen digits and a digit or the letter X. -/
def isMainlandForm (cs : List Char) : Bool :=
  cs.length == 18 && (cs.take 17).all isDigit &&
    (cs.drop 17).all fun c => isDigit c || c == 'X' || c == 'x'

/-- A mainland number: the birth date from the seventh digit on, and a check character. -/
def isMainland (cs : List Char) : Bool :=
  let os := octets cs
  isMainlandForm cs && isDate (numberAt os 6 10) (numberAt os 10 12) (numberAt os 12 14) &&
    (mainlandChecks[weighted (os.take 17) mainlandWeights % 11]?).map (·.toNat)
      == (os[17]?).map upper

/-- The form of an old mainland number: fifteen digits. -/
def isLegacyForm (cs : List Char) : Bool := cs.length == 15 && cs.all isDigit

/-- The birth date of an old mainland number, which has only two digits for the year. -/
def isLegacyDate (cs : List Char) : Bool :=
  let os := octets cs
  isDate (1900 + numberAt os 6 8) (numberAt os 8 10) (numberAt os 10 12)

/-- The numbers of the Taiwanese area letters, `A` to `Z`. -/
def taiwanLetters : List Nat :=
  [10, 11, 12, 13, 14, 15, 16, 17, 34, 18, 19, 20, 21, 22, 35, 23, 24, 25, 26, 27, 28, 29, 32, 30,
    31, 33]

/-- A Taiwanese number: an area letter, a digit for the sex and eight more, the last of which makes
the sum a multiple of ten. -/
def isTaiwan (cs : List Char) : Bool :=
  match cs with
  | letter :: sex :: digits =>
    let os := octets cs
    let area := (taiwanLetters[letter.toNat - 'A'.toNat]?).getD 0
    let sum := area / 10 + area % 10 * 9 + weighted ((os.drop 1).take 8) [8, 7, 6, 5, 4, 3, 2, 1] +
      digit ((os[9]?).getD 0)
    isAsciiUpper letter && (sex == '1' || sex == '2') && digits.length == 8 &&
      digits.all isDigit && sum % 10 == 0
  | _ => false

/-- The number of a letter of a Hong Kong number. -/
def letterNumber (c : Char) : Nat := c.toNat - 'A'.toNat + 10

/-- The part of the sum that the letters of a Hong Kong number make up; none if they are not one
or two. -/
def letterSum? : List Char → Option Nat
  | [single] => some (36 * 9 + letterNumber single * 8)
  | [first, second] => some (letterNumber first * 9 + letterNumber second * 8)
  | _ => none

/-- The check character of a sum. -/
def hongKongCheck (sum : Nat) : Char :=
  match (11 - sum % 11) % 11 with
  | 10 => 'A'
  | n => Char.ofNat ('0'.toNat + n)

/-- The check character as it is written, in parentheses or without. -/
def writtenCheck? : List Char → Option Char
  | [c] => if isAsciiDigit c || c == 'A' then some c else none
  | ['(', c, ')'] => if isAsciiDigit c || c == 'A' then some c else none
  | _ => none

/-- A Hong Kong number: one or two letters, six digits and the check character. -/
def isHongKong (cs : List Char) : Bool :=
  let letters := cs.takeWhile isAsciiUpper
  let rest := cs.drop letters.length
  let digits := rest.take 6
  match letterSum? letters, writtenCheck? (rest.drop 6) with
  | some sum, some check =>
    digits.length == 6 && digits.all isDigit &&
      hongKongCheck (sum + weighted (octets digits) [7, 6, 5, 4, 3, 2]) == check
  | _, _ => false

end IdCard

namespace Region

open IdCard

/-- The name of the region. -/
def name : Region → String
  | mainland => "mainland"
  | taiwan => "taiwan"
  | hongKong => "hongkong"

/-- The region of a name, or what is wrong with the name. -/
def ofName : String → Except String Region
  | "mainland" => .ok mainland
  | "taiwan" => .ok taiwan
  | "hongkong" => .ok hongKong
  | other => .error ("unknown region '" ++ other ++ "', expected mainland, taiwan or hongkong")

/-- Whether a text is a card number of the region. For the mainland, `legacy` admits the old form
of fifteen digits as well. -/
def accepts (r : Region) (legacy : Bool) (number : String) : Bool :=
  let cs := number.toList
  match r with
  | mainland => if legacy && isLegacyForm cs then isLegacyDate cs else isMainland cs
  | taiwan => isTaiwan cs
  | hongKong => isHongKong cs

end Region

namespace Builtin

/-- The message of `id_card`. -/
def idCardMessage : String := "invalid \x7bregion\x7d identity card number"

/-- The check of a card number, on a text or on null. -/
def checkIdCard (code : String) (region : Region) (legacy : Bool) : Check Value
  | .null => .pass
  | .text number =>
    if region.accepts legacy number then .pass
    else .fail ((Failure.new code idCardMessage (.text number)).setParam "region" region.name)
  | v => .fail (.typeMismatch DeclaredType.text.render v)

/-- Card numbers of the region in the attribute `region`, with those of the old form if `legacy`
says so. -/
def idCard : Kind where
  name := "id_card"
  order := none
  message := some idCardMessage
  attributes := [⟨"region", some (.text Region.mainland.name)⟩, ⟨"legacy", some (.bool false)⟩]
  factories := [{
    applies := fun type => type == .text
    produce := fun _ settings => do
      let name ← settings.text "region"
      match Region.ofName name with
      | .error reason => throw (settings.invalid "region" reason)
      | .ok region =>
        let legacy ← settings.bool "legacy"
        return .onValues (.leaf (checkIdCard settings.kind region legacy)) }]
  parts := []

end Builtin

end Validation
