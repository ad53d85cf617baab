/-!
Finite double-precision numbers, kept as their bits. A number with a fraction or
an exponent, or too large to be a whole number, is stored in this form.
-/

namespace SchemaSpans

/-- The eleven exponent bits of a double. -/
def Double.exponentBits (bits : UInt64) : UInt64 :=
  (bits >>> 52) &&& 0x7FF

/-- A double that is neither infinite nor the result of an undefined operation. -/
structure Double where
  bits : UInt64
  finite : Double.exponentBits bits ≠ 0x7FF
deriving DecidableEq

namespace Double

/-- Keeps a machine number if it is finite. -/
def ofFloat? (x : Float) : Option Double :=
  if h : exponentBits x.toBits ≠ 0x7FF then some ⟨x.toBits, h⟩ else none

/-- The power of ten nearest to `10 ^ n`, for `n` up to 308. -/
def powerOfTen (n : Nat) : Float :=
  Float.ofScientific 1 false n

/--
Scales `x` by ten to the power `exponent`, each step rounded on its own; nothing
when that is too large. More than 308 places are divided off 308 at a time, until
the number has vanished or few enough places are left.
-/
def scale (x : Float) (exponent : Int) : Option Float :=
  if exponent.natAbs ≤ 308 then
    some (if 0 ≤ exponent then x * powerOfTen exponent.natAbs
      else x / powerOfTen exponent.natAbs)
  else if x == 0 then some x
  else if 0 < exponent then none
  else scale (x / powerOfTen 308) (exponent + 308)
termination_by (-exponent).toNat

/--
The double for `± significand * 10 ^ exponent`: the significand is rounded first,
then scaled. Nothing when the result is too large.
-/
def ofParts? (negative : Bool) (significand : Nat) (exponent : Int) : Option Double := do
  let x ← scale (Float.ofScientific significand false 0) exponent
  ofFloat? (if negative then -x else x)

/-- Whether the sign bit is set. -/
def isNegative (x : Double) : Bool :=
  x.bits >>> 63 == 1

/-- The 52 low bits. -/
def fractionBits (x : Double) : Nat :=
  x.bits.toNat % 0x10000000000000

/-- The whole number `m` for which the magnitude is `m * 2 ^ q`, with `q = x.power`. -/
def significand (x : Double) : Nat :=
  if exponentBits x.bits = 0 then x.fractionBits else x.fractionBits + 0x10000000000000

/-- The power of two that one unit of the significand is worth. -/
def power (x : Double) : Int :=
  if exponentBits x.bits = 0 then -1074 else (exponentBits x.bits).toNat - 1075

/-- At a power of two the next smaller double is only half a unit away. -/
def isNarrowBelow (x : Double) : Bool :=
  x.fractionBits = 0 && 1 < exponentBits x.bits

end Double

end SchemaSpans
