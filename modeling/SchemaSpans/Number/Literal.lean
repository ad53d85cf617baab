import SchemaSpans.Number.Basic

/-!
Number literals and the numbers they stand for. A literal without fraction and
exponent is a whole number wherever 64 bits can hold it; every other literal is a
double, worked out from as many digits as fit into 64 bits.
-/

namespace SchemaSpans

/-- A number as it is written. -/
structure Literal where
  negative : Bool
  /-- The digits before the point. -/
  whole : List Nat
  /-- The digits behind the point; none if there is no point. -/
  fraction : List Nat
  exponent : Option Int
deriving DecidableEq

namespace Literal

/-- The number that decimal digits name. -/
def ofDigits (digits : List Nat) : Nat :=
  digits.foldl (fun n d => 10 * n + d) 0

/--
Continues the number `n` by the digits that keep it below `limit`, up to the first
one that does not; yields the number and the digits left over.
-/
def takeFitting (limit n : Nat) : List Nat → Nat × List Nat
  | [] => (n, [])
  | d :: digits =>
    if 10 * n + d < limit then takeFitting limit (10 * n + d) digits else (n, d :: digits)

/-- The digits of a double are taken up as long as they fit into 64 bits. -/
def significandLimit : Nat := 0x10000000000000000

/-- Whether a literal has neither a fraction nor an exponent. -/
def isPlain (l : Literal) : Bool :=
  l.fraction.isEmpty && l.exponent.isNone

/-- The digits before the point with their sign. -/
def signedWhole (l : Literal) : Int :=
  if l.negative then -(ofDigits l.whole : Int) else ofDigits l.whole

/-- The whole number that a literal stands for. There is none for a negative zero. -/
def whole? (l : Literal) : Option Whole :=
  if l.isPlain && !(l.negative && ofDigits l.whole == 0) then Whole.ofInt? l.signedWhole
  else none

/--
The double that a literal stands for. Of its digits the first ones that fit into 64
bits count; a digit before the point that is left over is worth a place, one behind
the point is worth nothing.
-/
def double? (l : Literal) : Option Double :=
  -- a digit before the point that does not fit ends the significand, not the number
  let (n, dropped) := takeFitting significandLimit 0 l.whole
  let (significand, unused) := takeFitting significandLimit n l.fraction
  let places : Int := dropped.length - (l.fraction.length - unused.length)
  Double.ofParts? l.negative significand (places + l.exponent.getD 0)

/-- The number that a literal stands for; none if it is too large. -/
def number? (l : Literal) : Option Number :=
  match l.whole? with
  | some n => some (.whole n)
  | none => l.double?.map .fractional

end Literal

end SchemaSpans
