import BehaviorTree.Decimal.Power

/-! # Binary floating-point formats

A format is given by the widths of its fraction and of its exponent. `Format.decode` takes the
bits of a number apart, and `Format.round` gives the bits of the number of a format that is
nearest to `mantissa * 2 ^ exponent`, a tie going to the even neighbour. `narrow` is the passage
from 64 to 32 bits. -/

namespace BehaviorTree.Decimal

/-- The widths of a binary floating-point format. -/
structure Format where
  fractionBits : Nat
  exponentBits : Nat

/-- Single precision. -/
def binary32 : Format := ⟨23, 8⟩

/-- Double precision. -/
def binary64 : Format := ⟨52, 11⟩

/-- A positive number `mantissa * 2 ^ exponent` of a format. It is `lowest` where the neighbour
below is only half as far away as the one above. -/
structure Magnitude where
  mantissa : Nat
  exponent : Int
  lowest : Bool
deriving DecidableEq

/-- What the bits of a number denote, its sign apart. -/
inductive Class
  | zero
  | finite (magnitude : Magnitude)
  | infinite
  | nan
deriving DecidableEq

namespace Format

/-- The exponent of the unit in the last place of the smallest numbers. -/
def leastExponent (f : Format) : Int :=
  2 - (twoTo (f.exponentBits - 1) : Int) - (f.fractionBits : Int)

/-- The exponent field of infinities and NaN. -/
def topField (f : Format) : Nat := twoTo f.exponentBits - 1

/-- The bits of infinity. -/
def infinityBits (f : Format) : Nat := f.topField * twoTo f.fractionBits

/-- The bit that is set in negative numbers. -/
def signBit (f : Format) : Nat := twoTo (f.exponentBits + f.fractionBits)

/-- Whether a number is negative, and what else its bits denote. -/
def decode (f : Format) (bits : Nat) : Bool × Class :=
  let negative := f.signBit ≤ bits
  let field := bits / twoTo f.fractionBits % twoTo f.exponentBits
  let fraction := bits % twoTo f.fractionBits
  let cls : Class :=
    if field = f.topField then (if fraction = 0 then .infinite else .nan)
    else if field = 0 then
      (if fraction = 0 then .zero else .finite ⟨fraction, f.leastExponent, false⟩)
    else
      .finite ⟨twoTo f.fractionBits + fraction, f.leastExponent + (field - 1 : Nat),
        fraction = 0 && 1 < field⟩
  (negative, cls)

/-- The quotient rounded to the nearest integer, a tie to the even one. -/
def divNearest (n d : Nat) : Nat :=
  let q := n / d
  let twice := 2 * (n % d)
  if twice < d then q
  else if d < twice then q + 1
  else if q % 2 = 0 then q else q + 1

/-- The bits of the positive number nearest to `mantissa * 2 ^ exponent`; infinity beyond the
range, 0 below it. -/
def round (f : Format) (mantissa : Nat) (exponent : Int) : Nat :=
  if mantissa = 0 then 0
  else
    let lead := exponent + Nat.log2 mantissa
    let unit := max (lead - f.fractionBits) f.leastExponent
    let scaled :=
      if unit ≤ exponent then mantissa * twoTo (exponent - unit).toNat
      else divNearest mantissa (twoTo (unit - exponent).toNat)
    min ((unit - f.leastExponent).toNat * twoTo f.fractionBits + scaled) f.infinityBits

end Format

/-- The single-precision number nearest to a double-precision one. -/
def narrow (x : Float) : Float32 :=
  let (negative, cls) := binary64.decode x.toBits.toNat
  let bits : Nat :=
    match cls with
    | .zero => 0
    | .finite m => binary32.round m.mantissa m.exponent
    | .infinite => binary32.infinityBits
    | .nan => binary32.infinityBits + twoTo 22
  let magnitude := Float32.ofBits bits.toUInt32
  if negative then -magnitude else magnitude

end BehaviorTree.Decimal
