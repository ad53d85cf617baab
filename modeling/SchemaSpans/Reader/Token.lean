import SchemaSpans.Reader.Numeral
import SchemaSpans.Reader.Quoted

/-!
How a value begins, and the values without parts: words, strings and 32-bit
integers. A value of another kind than the one called for is read as far as it
has no parts, so that its own faults come first, and is then named in the message.
-/

namespace SchemaSpans

/-- What the first byte of a value tells about it. -/
inductive Start where
  | null
  | true
  | false
  | number
  | string
  | list
  | object
  /-- No value begins like this. -/
  | other
deriving DecidableEq

/-- The kind of value that begins with the byte `b`. -/
def Start.ofByte (b : UInt8) : Start :=
  match b with
  | Ascii.lowerN => .null
  | Ascii.lowerT => .true
  | Ascii.lowerF => .false
  | Ascii.quote => .string
  | Ascii.openBracket => .list
  | Ascii.openBrace => .object
  | Ascii.minus => .number
  | b => if (Ascii.digit? b).isSome then .number else .other

namespace Reader

variable {α : Type}

/-- How the next value begins; `none` at the end of the text. -/
def start : Reader (Option Start) := do
  let first ← token
  pure (first.map Start.ofByte)

/-- Reads exactly these bytes. -/
def letters : List UInt8 → Reader Unit
  | [] => pure ()
  | letter :: rest => do
    match ← next with
    | none => fail .endInValue
    | some b => if b = letter then letters rest else fail .expectedWord

/-- Reads the word for an absent value. -/
def nullWord : Reader Unit :=
  letters [Ascii.lowerN, Ascii.lowerU, Ascii.lowerL, Ascii.lowerL]

/-- Reads the word for a true value. -/
def trueWord : Reader Unit :=
  letters [Ascii.lowerT, Ascii.lowerR, Ascii.lowerU, Ascii.lowerE]

/-- Reads the word for a false value. -/
def falseWord : Reader Unit :=
  letters [Ascii.lowerF, Ascii.lowerA, Ascii.lowerL, Ascii.lowerS, Ascii.lowerE]

/-- Stops at a value that begins in a way not called for. -/
def mismatch (expected : Expected) : Option Start → Reader α
  | none => fail .endInValue
  | some .null => do
    nullWord
    fail (.wrongKind .null expected)
  | some .true => do
    trueWord
    fail (.wrongKind (.bool true) expected)
  | some .false => do
    falseWord
    fail (.wrongKind (.bool false) expected)
  | some .number => do
    let n ← number
    fail (.wrongKind (.number n) expected)
  | some .string => do
    let _ ← next
    let s ← quotedText
    fail (.wrongKind (.string s) expected)
  -- a value with parts is not read at all
  | some .list => fail (.wrongKind .list expected)
  | some .object => fail (.wrongKind .object expected)
  | some .other => reject .expectedValue

/-- Reads a string. -/
def string : Reader String := do
  match ← start with
  | some .string =>
    let _ ← next
    quotedText
  | other => mismatch .string other

/-- The 32-bit integer that a number is, if it is one. -/
def toInt32 : Number → Except Cause Int32
  | .whole n =>
    if -0x80000000 ≤ n.val ∧ n.val < 0x80000000 then .ok (Int32.ofInt n.val)
    else .error (.outOfRange n)
  | .fractional x => .error (.wrongKind (.number (.fractional x)) .int32)

/-- Reads a 32-bit integer. -/
def int32 : Reader Int32 := do
  match ← start with
  | some .number =>
    let n ← number
    match toInt32 n with
    | .ok i => pure i
    | .error cause => fail cause
  | other => mismatch .int32 other

/-- Reads the opening quote of a key. -/
def keyQuote : Reader Unit := do
  match ← token with
  | none => fail .endInObject
  | some b =>
    if b = Ascii.quote then
      let _ ← next
    else reject .keyNotString

/-- Reads the colon behind a key. -/
def colon : Reader Unit := do
  match ← token with
  | none => fail .endInObject
  | some b =>
    if b = Ascii.colon then
      let _ ← next
    else reject .expectedColon

end Reader

end SchemaSpans
