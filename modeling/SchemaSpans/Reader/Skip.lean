import SchemaSpans.Reader.Kept

/-!
JSON values that are passed over. They must be well formed, but they may be nested
to any depth, their numbers may be of any size, and surrogates need not be paired.
-/

namespace SchemaSpans.Reader

/-- Passes over one item of a list. -/
def skipItem (value : Reader Unit) (_ : Unit) : Reader Unit :=
  value

/-- Passes over one member of an object. -/
def skipMember (value : Reader Unit) (_ : Unit) : Reader Unit := do
  keyQuote
  skipQuoted
  colon
  value

/-- Passes over a value; `inside` passes over the values between its brackets. -/
def skipWith (inside : Option (Reader Unit)) : Reader Unit := do
  match ← start with
  | none => fail .endInValue
  | some .null => nullWord
  | some .true => trueWord
  | some .false => falseWord
  | some .number => skipNumber
  | some .string =>
    let _ ← next
    skipQuoted
  | some .list => descend inside fun value => Bracket.list.lenient.read (skipItem value) ()
  | some .object => descend inside fun value =>
    Bracket.object.lenient.read (skipMember value) ()
  | some .other => reject .expectedValue

/-- Passes over a value with at most `allowance` brackets open at once. -/
def skipWithin : Nat → Reader Unit
  | 0 => skipWith none
  | allowance + 1 => skipWith (some (skipWithin allowance))

/-- Passes over a value. Each bracket takes a byte, so the allowance never runs out. -/
def skip : Reader Unit where
  run input := (skipWithin input.length).run input
  rest_suffix input := (skipWithin input.length).rest_suffix input

end SchemaSpans.Reader
