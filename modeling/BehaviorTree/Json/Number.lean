import BehaviorTree.Decimal.Binary
import BehaviorTree.Decimal.Scientific
import BehaviorTree.Json.Value

/-! # Numbers in JSON

A number without point or exponent is an integer if it fits 64 bits, unsigned or, behind a minus
sign, signed; anything else, and `-0`, is a double. A double takes as many leading digits as fit
64 unsigned bits and is scaled by a power of ten, so that it need not be the nearest one to the
number as written. One beyond the range of doubles cannot be used. -/

namespace BehaviorTree.Json

open Decimal (digitValue natOfDigits signed)

/-- The value of a number. -/
inductive Number
  | nat (value : Nat)
  | negative (value : Int)
  | double (value : Float)

/-- Takes digits into a significand as long as it fits 64 bits; answers the significand, how many
digits it took, and how many are left. -/
def takeDigits (significand : Nat) (taken : Nat) : List Char → Nat × Nat × Nat
  | [] => (significand, taken, 0)
  | d :: rest =>
    let next := significand * 10 + digitValue d
    if next < UInt64.size then takeDigits next (taken + 1) rest
    else (significand, taken, rest.length + 1)

/-- The double nearest to a power of ten, up to the 308th. -/
def powerOfTen (k : Nat) : Float := Float.ofScientific 1 false k

/-- A double times a power of ten, the exponent taken in steps of 308 when it is below the
range. -/
def scale (x : Float) (exponent : Int) : Except Fault Float :=
  if 0 ≤ exponent ∧ exponent ≤ 308 then
    let y := x * powerOfTen exponent.toNat
    if y.isInf then .error .malformed else .ok y
  else if -308 ≤ exponent ∧ exponent < 0 then .ok (x / powerOfTen (-exponent).toNat)
  else if x == 0 then .ok x
  else if 0 ≤ exponent then .error .malformed
  else scale (x / powerOfTen 308) (exponent + 308)
termination_by exponent.natAbs
decreasing_by omega

namespace Numeral

/-- Whether a number is written without point and exponent. -/
def isInteger (n : Numeral) : Bool := n.fraction.isEmpty && n.exponent.isNone

/-- The exponent as written. -/
def exponentValue (n : Numeral) : Int :=
  match n.exponent with
  | none => 0
  | some (negative, digits) => signed negative (natOfDigits digits)

/-- The value as a double. -/
def toDouble (n : Numeral) : Except Fault Float :=
  let (whole, _, dropped) := takeDigits 0 0 n.whole
  let (significand, fractionTaken, _) := takeDigits whole 0 n.fraction
  let exponent := n.exponentValue + dropped - fractionTaken
  (scale significand.toUInt64.toFloat exponent).map fun x => if n.negative then -x else x

/-- The value of a number. -/
def value (n : Numeral) : Except Fault Number :=
  let (whole, _, dropped) := takeDigits 0 0 n.whole
  if n.isInteger ∧ dropped = 0 then
    if !n.negative then .ok (.nat whole)
    else if 0 < whole ∧ Int64.minValue.toInt ≤ -whole then .ok (.negative (-whole))
    else .ok (.double (-whole.toUInt64.toFloat))
  else n.toDouble.map .double

end Numeral

namespace Number

/-- The value as a single-precision number; an integer is rounded once, a double once more. -/
def toFloat32 : Number → Float32
  | nat n => n.toUInt64.toFloat32
  | negative n => -n.natAbs.toUInt64.toFloat32
  | double x => Decimal.narrow x

/-- The value as an integer. -/
def toInt? : Number → Option Int
  | nat n => some n
  | negative n => some n
  | double _ => none

end Number

end BehaviorTree.Json
