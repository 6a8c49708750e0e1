import Lineage.Toml.Text

/-!
# Numbers, booleans, dates and times

These values are read for their form and their range.  What they stand for is not kept, as no part
of a configuration takes one, but a document with a malformed number is malformed.

Integers have 64 bits.  A float may not be so large that it counts as infinite; it may be so small
that it counts as zero, and a negative one may be of any size.
-/

namespace Lineage.Toml

open Reader

inductive Scalar where
  | boolean
  | integer
  | float
  | moment
deriving DecidableEq

/-! ## Digits -/

/-- Digits, with single underscores between them if need be. -/
def digits (accepts : Char → Bool) : Reader (List Char) := do
  let first ← satisfy accepts
  return first :: (← many do
    let _ ← optional (char '_')
    satisfy accepts)

/-- The number written by digits to a base. -/
def numberOf (base : Nat) (digits : List Char) : Nat :=
  digits.foldl (fun number digit ↦ base * number + (hexDigit? digit).getD 0) 0

def decimalDigits : Reader (List Char) := digits isDecimal

/-- Decimal digits of which the first is no zero, or a zero alone. -/
def unpaddedDigits : Reader (List Char) := do
  match ← decimalDigits with
  | '0' :: _ :: _ => failure
  | digits => return digits

/-! ## Integers -/

def largestInteger : Nat := 0x7FFFFFFFFFFFFFFF

/-- An integer after `0x`, `0o` or `0b`. -/
def radixInteger : Reader Scalar := do
  char '0'
  let (base, accepts) ← match ← oneOf ['x', 'o', 'b'] with
    | 'x' => pure (16, fun c ↦ (hexDigit? c).isSome)
    | 'o' => pure (8, fun c ↦ '0' ≤ c && c ≤ '7')
    | _ => pure (2, fun c ↦ c = '0' || c = '1')
  if numberOf base (← digits accepts) ≤ largestInteger then return .integer else failure

def checkInteger (negative : Bool) (digits : List Char) : Option Scalar :=
  let limit := if negative then largestInteger + 1 else largestInteger
  if numberOf 10 digits ≤ limit then some .integer else none

/-! ## Floats -/

/-- The least number that rounds to infinity in 64 bits: half a unit above the largest float. -/
def infinityThreshold : Nat := Nat.pow 2 1024 - Nat.pow 2 970

/-- Whether `number * 10 ^ exponent`, where `number` has at most `count` decimal digits and exactly
as many if it is not zero, reaches `infinityThreshold`.  The threshold has 309 digits, so a power of
ten is computed only where the number of digits leaves the matter open. -/
def roundsToInfinity (number count : Nat) (exponent : Int) : Bool :=
  if number = 0 then false
  else
    let length := count + exponent
    if length < 309 then false
    else if 309 < length then true
    else if 0 ≤ exponent then infinityThreshold ≤ number * Nat.pow 10 exponent.toNat
    else infinityThreshold * Nat.pow 10 (-exponent).toNat ≤ number

/-- The digits after the point of a float. -/
def fraction : Reader (List Char) := do
  char '.'
  decimalDigits

/-- The exponent of a float. -/
def exponent : Reader Int := do
  let _ ← oneOf ['e', 'E']
  let sign ← optional (oneOf ['+', '-'])
  let size := numberOf 10 (← decimalDigits)
  return if sign = some '-' then -size else size

def checkFloat (negative : Bool) (whole fraction : List Char) (exponent : Int) : Option Scalar :=
  let significant := (whole ++ fraction).dropWhile (· = '0')
  let infinite := roundsToInfinity (numberOf 10 significant) significant.length
    (exponent - fraction.length)
  if infinite && !negative then none else some .float

/-- An integer in decimal digits, or a float. -/
def decimalNumber : Reader Scalar := do
  let negative := (← optional (oneOf ['+', '-'])) = some '-'
  (do word "inf" <|> word "nan"; return .float) <|> do
    let whole ← unpaddedDigits
    let fractionDigits ← optional fraction
    let power ← optional exponent
    if fractionDigits.isNone && power.isNone then
      checkInteger negative whole
    else
      checkFloat negative whole (fractionDigits.getD []) (power.getD 0)

/-! ## Dates and times -/

/-- A number of exactly `count` digits, within bounds. -/
def bounded (count low high : Nat) : Reader Nat := do
  let number := numberOf 10 (← times count (satisfy isDecimal))
  if low ≤ number && number ≤ high then return number else failure

def isLeapYear (year : Nat) : Bool := (year % 4 = 0 && year % 100 ≠ 0) || year % 400 = 0

def daysInMonth (year month : Nat) : Nat :=
  if month = 2 then if isLeapYear year then 29 else 28
  else if month ∈ [4, 6, 9, 11] then 30
  else 31

def date : Reader Unit := do
  let year ← bounded 4 0 9999
  char '-'
  let month ← bounded 2 1 12
  char '-'
  let _ ← bounded 2 1 (daysInMonth year month)

def hourAndMinute : Reader Unit := do
  let _ ← bounded 2 0 23
  char ':'
  let _ ← bounded 2 0 59

/-- A time of day.  The sixtieth second is a leap second. -/
def time : Reader Unit := do
  hourAndMinute
  char ':'
  let _ ← bounded 2 0 60
  let _ ← optional do
    char '.'
    let _ ← satisfy isDecimal
    takeWhile isDecimal

/-- How far a time is from universal time. -/
def offset : Reader Unit :=
  (do let _ ← oneOf ['Z', 'z']) <|> do
    let _ ← oneOf ['+', '-']
    hourAndMinute

/-- A date, which a time may follow, or a time alone. -/
def moment : Reader Scalar := do
  (do
    date
    let _ ← optional do
      let _ ← oneOf ['T', 't', ' ']
      time
      optional offset) <|> time
  return .moment

/-! ## Scalars -/

def boolean : Reader Scalar := do
  word "true" <|> word "false"
  return .boolean

def scalar : Reader Scalar := boolean <|> moment <|> radixInteger <|> decimalNumber

end Lineage.Toml
