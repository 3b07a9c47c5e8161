import TreeDelta.Json.Value

/-!
# Numerals and their values

A numeral without point and exponent is an integer when its value fits into 64 bits: from zero up
to 2^64 - 1 without a sign, from -1 down to -2^63 with one. Minus zero is no integer, because its
sign would be lost.

As a floating-point number a numeral is read from its leading digits. Digits are gathered into a
64-bit significand; a digit of the whole part that no longer fits raises the exponent instead, and
a digit of the fraction that no longer fits is dropped. The significand is then scaled by one power
of ten. A numeral whose scaled value is infinite has no value; one that is too small is zero.
-/

namespace TreeDelta.Json

/-- The value of a decimal digit. -/
def digitValue (digit : Char) : Nat := digit.toNat - '0'.toNat

/-- The number written by decimal digits, most significant first. -/
def digitsValue (digits : List Char) : Nat :=
  digits.foldl (fun total digit => 10 * total + digitValue digit) 0

namespace Numeral

/-- The first number that needs more than 64 bits. -/
def significandBound : Nat := Nat.pow 2 64

/-- A significand with one more digit, if that still fits into 64 bits. -/
def extend? (significand : Nat) (digit : Char) : Option Nat :=
  let extended := 10 * significand + digitValue digit
  if extended < significandBound then some extended else none

/-- Gather the whole part: the significand and the number of digits that did not fit. From the
first digit that does not fit on, all digits count as not fitting. -/
def gatherWhole (significand : Nat) : List Char → Nat × Nat
  | [] => (significand, 0)
  | digit :: rest =>
    match extend? significand digit with
    | some extended => gatherWhole extended rest
    | none => (significand, rest.length + 1)

/-- Gather the fraction: the significand and the number of digits that went into it. From the first
digit that does not fit on, all digits are dropped. -/
def gatherFraction (significand used : Nat) : List Char → Nat × Nat
  | [] => (significand, used)
  | digit :: rest =>
    match extend? significand digit with
    | some extended => gatherFraction extended (used + 1) rest
    | none => (significand, used)

/-- The exponent that is written, zero if there is none. -/
def writtenExponent (numeral : Numeral) : Int :=
  match numeral.exponent with
  | none => 0
  | some exponent =>
    if exponent.negative then -(digitsValue exponent.digits : Int) else digitsValue exponent.digits

/-- The significand and the power of ten that scales it. -/
def parts (numeral : Numeral) : Nat × Int :=
  let (whole, raised) := gatherWhole 0 numeral.whole
  let (significand, used) := gatherFraction whole 0 numeral.fraction
  (significand, (raised : Int) - used + numeral.writtenExponent)

/-- The greatest power of ten that is a floating-point number. -/
def greatestPower : Nat := 308

/-- A power of ten up to the greatest one. -/
def powerOfTen (exponent : Nat) : Float := Float.ofScientific 1 false exponent

/-- Divide by a power of ten, in steps of the greatest one. Two such steps take every 64-bit
significand to zero, so three steps always suffice. -/
def scaleDown (significand : Float) : Nat → Nat → Float
  | 0, _ => 0
  | steps + 1, exponent =>
    if exponent ≤ greatestPower then significand / powerOfTen exponent
    else scaleDown (significand / powerOfTen greatestPower) steps (exponent - greatestPower)

/-- The size of `significand * 10 ^ exponent`, absent when it is too large. -/
def scaled? (significand : Nat) (exponent : Int) : Option Float :=
  let start := significand.toUInt64.toFloat
  if significand = 0 then some 0
  else if exponent < 0 then some (scaleDown start 3 exponent.natAbs)
  else if exponent.natAbs ≤ greatestPower then
    let size := start * powerOfTen exponent.natAbs
    if size.isInf then none else some size
  else none

/-- The floating-point value of a numeral, absent when it is too large. -/
def float? (numeral : Numeral) : Option Float :=
  let (significand, exponent) := numeral.parts
  (scaled? significand exponent).map fun size => if numeral.negative then -size else size

/-- The value of a numeral that is an integer of at most 64 bits. -/
def integer? (numeral : Numeral) : Option Int :=
  if numeral.fraction = [] ∧ numeral.exponent = none then
    let size := digitsValue numeral.whole
    if numeral.negative then
      if 0 < size ∧ 2 * size ≤ significandBound then some (-(size : Int)) else none
    else if size < significandBound then some size else none
  else none

/-- The number that a numeral stands for, absent when it is too large. -/
def number? (numeral : Numeral) : Option Number :=
  match numeral.integer? with
  | some value => some (.integer value)
  | none => numeral.float?.map fun _ => .decimal numeral

end Numeral

namespace Number

/-- A number as a floating-point number. Integers are rounded to the nearest one. -/
def toFloat : Number → Float
  | .integer value =>
    if value < 0 then -value.natAbs.toUInt64.toFloat else value.natAbs.toUInt64.toFloat
  | .decimal numeral => numeral.float?.getD 0

end Number

end TreeDelta.Json
