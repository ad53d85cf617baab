import SchemaSpans.Number.Literal
import SchemaSpans.Reader.Basic

/-!
Number literals. A number that is skipped has the same form as one that is kept,
but no exponent is too large for it, and a text that ends inside it is reported as
a malformed number.
-/

namespace SchemaSpans

/-- How a number literal is read. -/
structure Numeral where
  /-- The cause when the text ends where a digit must stand. -/
  atEnd : Cause
  /-- Whether an exponent that no number can have is refused while it is read. -/
  bounded : Bool

namespace Reader

/-- Reads past the next byte if it is `b`, and tells whether it was. -/
def skipIf (b : UInt8) : Reader Bool := do
  if (← peek) = some b then
    let _ ← next
    pure true
  else pure false

/-- Reads the run of digits that comes next, which may be empty. -/
def digits : Reader (List Nat) := do
  let run ← takeWhile fun b => (Ascii.digit? b).isSome
  pure (run.filterMap Ascii.digit?)

end Reader

namespace Numeral

open Reader

/-- A number whose value is wanted. -/
def kept : Numeral where
  atEnd := .endInValue
  bounded := true

/-- A number that is passed over. -/
def skipped : Numeral where
  atEnd := .malformedNumber
  bounded := false

/-- Reads a byte that must be a digit. -/
def digit (r : Numeral) : Reader Nat := do
  match ← next with
  | none => fail r.atEnd
  | some b =>
    match Ascii.digit? b with
    | some d => pure d
    | none => fail .malformedNumber

/-- Reads the digits before the point. No digit follows a leading zero. -/
def whole (r : Numeral) : Reader (List Nat) := do
  let first ← r.digit
  if first = 0 then
    match (← peek).bind Ascii.digit? with
    | some _ => reject .malformedNumber
    | none => pure [0]
  else
    let more ← digits
    pure (first :: more)

/-- Reads the point and the digits behind it, if there is a point. -/
def fraction (r : Numeral) : Reader (List Nat) := do
  if ← skipIf Ascii.point then
    let first ← r.digit
    let more ← digits
    pure (first :: more)
  else pure []

/-- The greatest exponent that is still read in full. -/
def exponentLimit : Nat := 0x7FFFFFFF

/--
Continues the exponent `n` by the digits that come next. If `refuses` holds, reading
stops behind the digit that makes the exponent too large.
-/
def continueExponent (refuses : Bool) (n : Nat) : Input → Outcome Nat
  | [] => .done n []
  | b :: rest =>
    match Ascii.digit? b with
    | none => .done n (b :: rest)
    | some d =>
      if refuses && exponentLimit < 10 * n + d then .stopped .numberTooLarge rest
      else continueExponent refuses (10 * n + d) rest

theorem continueExponent_suffix (refuses : Bool) (n : Nat) (input : Input) :
    (continueExponent refuses n input).rest <:+ input := by
  fun_induction continueExponent refuses n input with
  | case1 => exact List.suffix_refl _
  | case2 n b rest => exact List.suffix_refl _
  | case3 n b rest => exact List.suffix_cons b rest
  | case4 n b rest d _ _ ih => exact ih.trans (List.suffix_cons b rest)

/-- Reads the digits of an exponent behind its first one. -/
def exponentDigits (refuses : Bool) (n : Nat) : Reader Nat where
  run := continueExponent refuses n
  rest_suffix := continueExponent_suffix refuses n

/-- Reads past the letter that announces an exponent, if it comes next. -/
def exponentMark : Reader Bool := do
  if ← skipIf Ascii.lowerE then pure true else skipIf Ascii.upperE

/-- Reads the sign of an exponent, if it has one, and tells whether it is negative. -/
def exponentSign : Reader Bool := do
  if ← skipIf Ascii.minus then pure true
  else
    let _ ← skipIf Ascii.plus
    pure false

/--
Reads the exponent, if there is one. A positive exponent beyond the limit is refused
unless all digits before it are zeros.
-/
def exponent (r : Numeral) (digits : List Nat) : Reader (Option Int) := do
  if ← exponentMark then
    let negative ← exponentSign
    let first ← r.digit
    let n ← exponentDigits (r.bounded && !negative && digits.any (· ≠ 0)) first
    pure (some (if negative then -(n : Int) else n))
  else pure none

/-- Reads a number literal. -/
def read (r : Numeral) : Reader Literal := do
  let negative ← skipIf Ascii.minus
  let whole ← r.whole
  let fraction ← r.fraction
  let exponent ← r.exponent (whole ++ fraction)
  pure { negative, whole, fraction, exponent }

end Numeral

namespace Reader

/-- Reads a number. -/
def number : Reader Number := do
  let literal ← Numeral.kept.read
  match literal.number? with
  | some n => pure n
  | none => fail .numberTooLarge

/-- Passes over a number. -/
def skipNumber : Reader Unit := do
  let _ ← Numeral.skipped.read

end Reader

end SchemaSpans
