/-!
The bytes that have a meaning of their own in a descriptor text. All of them are
ASCII, so none of them ever occurs inside a longer UTF-8 sequence.
-/

namespace SchemaSpans.Ascii

@[match_pattern] abbrev tab : UInt8 := 0x09
@[match_pattern] abbrev newline : UInt8 := 0x0A
@[match_pattern] abbrev carriageReturn : UInt8 := 0x0D
@[match_pattern] abbrev space : UInt8 := 0x20
@[match_pattern] abbrev quote : UInt8 := 0x22
@[match_pattern] abbrev plus : UInt8 := 0x2B
@[match_pattern] abbrev comma : UInt8 := 0x2C
@[match_pattern] abbrev minus : UInt8 := 0x2D
@[match_pattern] abbrev point : UInt8 := 0x2E
@[match_pattern] abbrev slash : UInt8 := 0x2F
@[match_pattern] abbrev zero : UInt8 := 0x30
@[match_pattern] abbrev nine : UInt8 := 0x39
@[match_pattern] abbrev colon : UInt8 := 0x3A
@[match_pattern] abbrev upperA : UInt8 := 0x41
@[match_pattern] abbrev upperE : UInt8 := 0x45
@[match_pattern] abbrev upperF : UInt8 := 0x46
@[match_pattern] abbrev openBracket : UInt8 := 0x5B
@[match_pattern] abbrev backslash : UInt8 := 0x5C
@[match_pattern] abbrev closeBracket : UInt8 := 0x5D
@[match_pattern] abbrev lowerA : UInt8 := 0x61
@[match_pattern] abbrev lowerB : UInt8 := 0x62
@[match_pattern] abbrev lowerE : UInt8 := 0x65
@[match_pattern] abbrev lowerF : UInt8 := 0x66
@[match_pattern] abbrev lowerL : UInt8 := 0x6C
@[match_pattern] abbrev lowerN : UInt8 := 0x6E
@[match_pattern] abbrev lowerR : UInt8 := 0x72
@[match_pattern] abbrev lowerS : UInt8 := 0x73
@[match_pattern] abbrev lowerT : UInt8 := 0x74
@[match_pattern] abbrev lowerU : UInt8 := 0x75
@[match_pattern] abbrev openBrace : UInt8 := 0x7B
@[match_pattern] abbrev closeBrace : UInt8 := 0x7D

/-- Blanks may stand before and after every token. -/
def isBlank (b : UInt8) : Bool :=
  b = space || b = newline || b = tab || b = carriageReturn

/-- The value of a decimal digit. -/
def digit? (b : UInt8) : Option Nat :=
  if zero ≤ b ∧ b ≤ nine then some (b.toNat - zero.toNat) else none

/-- The value of a hexadecimal digit in either case. -/
def hexDigit? (b : UInt8) : Option Nat :=
  if zero ≤ b ∧ b ≤ nine then some (b.toNat - zero.toNat)
  else if lowerA ≤ b ∧ b ≤ lowerF then some (b.toNat - lowerA.toNat + 10)
  else if upperA ≤ b ∧ b ≤ upperF then some (b.toNat - upperA.toNat + 10)
  else none

/-- Bytes that a quoted string may hold only in escaped form. -/
def isControl (b : UInt8) : Bool :=
  b < space

end SchemaSpans.Ascii
