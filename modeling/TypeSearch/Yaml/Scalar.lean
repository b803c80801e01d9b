import TypeSearch.Text.Digits
import TypeSearch.Text.Double
import TypeSearch.Word

/-!
What a plain scalar is: nothing, a truth value, a number, a date or text. The tag of a scalar names
its kind.
-/

namespace TypeSearch.Yaml

/-- The value of a scalar. Only the whole part of a double is kept: `finite` is rounded towards
zero. -/
inductive Meaning where
  | null
  | bool (value : Bool)
  | int (value : Int)
  | float (finite : Int)
  | positiveInfinity
  | negativeInfinity
  | notANumber
  | timestamp
  | merge
  | text
  deriving DecidableEq, Repr, Inhabited

namespace Meaning

def tag : Meaning → String
  | null => "!!null"
  | bool _ => "!!bool"
  | int _ => "!!int"
  | float _ | positiveInfinity | negativeInfinity | notANumber => "!!float"
  | timestamp => "!!timestamp"
  | merge => "!!merge"
  | text => "!!str"

end Meaning

/-- A whole number that fits in 64 bits, signed or, without a sign, unsigned. -/
def integer? (chars : List Char) : Option Int :=
  match chars with
  | '-' :: digits => (Digits.literal? digits).bind fun n => Word.signed? (-(n : Int))
  | '+' :: digits => (Digits.literal? digits).bind fun n => Word.signed? n
  | digits => (Digits.literal? digits).bind fun n => (Word.unsigned? n).map Int.ofNat

/-- A sign behind the name of the base, where `integer?` takes none. -/
def signedBase? : List Char → Option Int
  | '0' :: 'b' :: digits => (Digits.int? 2 digits).bind Word.signed?
  | '0' :: 'o' :: digits => (Digits.int? 8 digits).bind Word.signed?
  | _ => none

structure Decimal where
  negative : Bool
  whole : List Char
  fraction : List Char
  exponent : Int

namespace Decimal

def exponent? : List Char → Option Int
  | [] => some 0
  | c :: rest => if c == 'e' || c == 'E' then Digits.int? 10 rest else none

/-- Reads an unsigned decimal; without a point there must be digits, and with one there must be
digits on one side. -/
def unsigned? (negative : Bool) (chars : List Char) : Option Decimal :=
  let whole := chars.takeWhile Char.isDigit
  match chars.dropWhile Char.isDigit with
  | '.' :: rest =>
    let fraction := rest.takeWhile Char.isDigit
    if whole.isEmpty && fraction.isEmpty then none
    else (exponent? (rest.dropWhile Char.isDigit)).map fun e => ⟨negative, whole, fraction, e⟩
  | rest =>
    if whole.isEmpty then none else (exponent? rest).map fun e => ⟨negative, whole, [], e⟩

def ofChars? : List Char → Option Decimal
  | '-' :: rest => unsigned? true rest
  | '+' :: rest => unsigned? false rest
  | rest => unsigned? false rest

def mantissa (decimal : Decimal) : Nat :=
  (Digits.nat? 10 (decimal.whole ++ decimal.fraction)).getD 0

def scale (decimal : Decimal) : Int := decimal.exponent - decimal.fraction.length

/-- The whole part of the nearest double, unless the number is too large for one. -/
def truncate? (decimal : Decimal) : Option Int :=
  let m := decimal.mantissa
  let digits : Int := (Nat.repr m).length + decimal.scale
  let magnitude : Option Nat :=
    if m = 0 ∨ digits < 0 then some 0
    else if 400 < digits then none
    else if 0 ≤ decimal.scale then
      let n := m * Nat.pow 10 decimal.scale.toNat
      if Double.overflow ≤ n then none else some (Double.wholePart n 1)
    else
      let unit := Nat.pow 10 (-decimal.scale).toNat
      if Double.overflow ≤ m / unit then none else some (Double.wholePart m unit)
  magnitude.map fun n => if decimal.negative then -(n : Int) else n

end Decimal

namespace Timestamp

def isLeap (year : Nat) : Bool := year % 4 == 0 && (year % 100 != 0 || year % 400 == 0)

def daysIn (year month : Nat) : Nat :=
  if month = 2 then (if isLeap year then 29 else 28)
  else if [4, 6, 9, 11].contains month then 30
  else 31

def readNumber : List Char → Option (Nat × List Char)
  | a :: b :: rest =>
    if !a.isDigit then none
    else if b.isDigit then some ((a.toNat - 48) * 10 + (b.toNat - 48), rest)
    else some (a.toNat - 48, b :: rest)
  | [a] => if a.isDigit then some (a.toNat - 48, []) else none
  | [] => none

def expect (c : Char) : List Char → Option (List Char)
  | d :: rest => if c == d then some rest else none
  | [] => none

def readTime (chars : List Char) : Option (List Char) := do
  let (hour, rest) ← readNumber chars
  let (minute, rest) ← readNumber (← expect ':' rest)
  let (second, rest) ← readNumber (← expect ':' rest)
  let rest := match rest with
    | c :: d :: more =>
      if (c == '.' || c == ',') && d.isDigit then (d :: more).dropWhile Char.isDigit
      else c :: d :: more
    | rest => rest
  if hour < 24 ∧ minute < 60 ∧ second < 60 then some rest else none

def isZone : List Char → Bool
  | ['Z'] => true
  | [sign, a, b, ':', c, d] =>
    (sign == '+' || sign == '-') && [a, b, c, d].all Char.isDigit &&
      (a.toNat - 48) * 10 + (b.toNat - 48) ≤ 24 && (c.toNat - 48) * 10 + (d.toNat - 48) ≤ 60
  | _ => false

def isTimestamp (chars : List Char) : Bool :=
  let year := chars.takeWhile Char.isDigit
  let result : Option Bool := do
    if year.length ≠ 4 then none
    let (month, rest) ← readNumber (← expect '-' (chars.drop 4))
    let (day, rest) ← readNumber (← expect '-' rest)
    let valid := 1 ≤ month ∧ month ≤ 12 ∧ 1 ≤ day ∧
      day ≤ daysIn ((Digits.nat? 10 year).getD 0) month
    if ¬valid then none
    match rest with
    | [] => some true
    | ' ' :: time => return (← readTime (time.dropWhile (· == ' '))).isEmpty
    | 'T' :: time | 't' :: time => return isZone (← readTime time)
    | _ => none
  result.getD false

end Timestamp

/-- Digits with single underscores between them read without them. -/
def dropUnderscores : List Char → Option (List Char)
  | a :: '_' :: b :: rest =>
    if a.isDigit && b.isDigit then (dropUnderscores (b :: rest)).map (a :: ·) else none
  | '_' :: _ => none
  | [_, '_'] => none
  | a :: rest => (dropUnderscores rest).map (a :: ·)
  | [] => some []

/-- What a plain scalar means; `dated` says whether it may be a date. -/
def Meaning.ofPlain (dated : Bool) (text : String) : Meaning :=
  if ["", "~", "null", "Null", "NULL"].contains text then .null
  else if ["true", "True", "TRUE"].contains text then .bool true
  else if ["false", "False", "FALSE"].contains text then .bool false
  else if [".nan", ".NaN", ".NAN"].contains text then .notANumber
  else if [".inf", ".Inf", ".INF", "+.inf", "+.Inf", "+.INF"].contains text then .positiveInfinity
  else if ["-.inf", "-.Inf", "-.INF"].contains text then .negativeInfinity
  else
    let chars := text.toList
    match chars with
    | '.' :: _ =>
      match (dropUnderscores chars).bind fun cs =>
          (Decimal.ofChars? cs).bind Decimal.truncate? with
      | some n => .float n
      | none => .text
    | c :: _ =>
      if !(c.isDigit || c == '+' || c == '-') then .text
      else if dated && Timestamp.isTimestamp chars then .timestamp
      else
        let plain := chars.filter (· != '_')
        match integer? plain, (Decimal.ofChars? plain).bind Decimal.truncate?,
            signedBase? plain with
        | some n, _, _ => .int n
        | none, some n, _ => .float n
        | none, none, some n => .int n
        | none, none, none => .text
    | [] => .text

end TypeSearch.Yaml
