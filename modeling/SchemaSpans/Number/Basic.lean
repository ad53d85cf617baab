import SchemaSpans.Number.Shortest

/-!
Numbers as descriptor texts hold them: whole numbers of 64 bits, signed or
unsigned, and doubles for everything else.
-/

namespace SchemaSpans

/-- A whole number that fits into 64 bits, with a sign or without. -/
structure Whole where
  val : Int
  lower : -0x8000000000000000 ≤ val := by omega
  upper : val < 0x10000000000000000 := by omega
deriving DecidableEq

/-- The whole number `n`, if 64 bits can hold it. -/
def Whole.ofInt? (n : Int) : Option Whole :=
  if h : -0x8000000000000000 ≤ n ∧ n < 0x10000000000000000 then some ⟨n, h.1, h.2⟩ else none

/-- A number in a descriptor text. -/
inductive Number where
  | whole (n : Whole)
  | fractional (x : Double)
deriving DecidableEq

namespace Number

/-- The decimal digits of an integer, with a sign if it is negative. -/
def writtenInt (n : Int) : List Char :=
  if n < 0 then '-' :: Nat.toDigits 10 n.natAbs else Nat.toDigits 10 n.natAbs

/-- A number as it is written. -/
def written : Number → List Char
  | whole n => writtenInt n.val
  | fractional x => x.written

end Number

end SchemaSpans
