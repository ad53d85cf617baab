import SchemaSpans.Number.Basic
import SchemaSpans.Text.Position
import SchemaSpans.Text.Shown

/-!
Why a text is refused, and the message that says so. A cause says what is wrong;
a fault is a cause together with the place where it was noticed.
-/

namespace SchemaSpans

/-- A value of the wrong kind, as far as a message describes it. -/
inductive Found where
  | null
  | bool (value : Bool)
  | number (value : Number)
  | string (value : String)
  | list
  | object
deriving DecidableEq

/-- The kind of value that a place in a descriptor calls for. -/
inductive Expected where
  | list
  | string
  | int32
  /-- A record, by the name of its type. -/
  | record (name : String)
deriving DecidableEq

/-- What is wrong with a text. -/
inductive Cause where
  | endInValue
  | endInString
  | endInList
  | endInObject
  | expectedValue
  | expectedWord
  | expectedColon
  | expectedListEnd
  | expectedObjectEnd
  | keyNotString
  | trailingComma
  | trailingText
  | malformedNumber
  | numberTooLarge
  | unknownEscape
  | controlCharacter
  | loneSurrogate
  | unfinishedSurrogate
  | nestedTooDeep
  | wrongKind (found : Found) (expected : Expected)
  /-- A whole number outside the range of 32-bit integers. -/
  | outOfRange (value : Whole)
  /-- A field of a record that is given a second time. -/
  | duplicateField (name : String)
deriving DecidableEq

namespace Found

/-- A number, as messages name it. -/
def numberText : Number → String
  | .whole n => s!"integer `{String.ofList (Number.whole n).written}`"
  | .fractional x => s!"floating point `{String.ofList (Number.fractional x).written}`"

/-- A value of the wrong kind, as messages name it. -/
def text : Found → String
  | null => "null"
  | bool true => "boolean `true`"
  | bool false => "boolean `false`"
  | number n => numberText n
  | string s => s!"string {Text.shown s}"
  | list => "sequence"
  | object => "map"

end Found

/-- The kind that is called for, as messages name it. -/
def Expected.text : Expected → String
  | list => "a sequence"
  | string => "a string"
  | int32 => "i32"
  | record name => s!"struct {name}"

/-- The wording of a cause. -/
def Cause.text : Cause → String
  | endInValue => "EOF while parsing a value"
  | endInString => "EOF while parsing a string"
  | endInList => "EOF while parsing a list"
  | endInObject => "EOF while parsing an object"
  | expectedValue => "expected value"
  | expectedWord => "expected ident"
  | expectedColon => "expected `:`"
  | expectedListEnd => "expected `,` or `]`"
  | expectedObjectEnd => "expected `,` or `\x7d`"
  | keyNotString => "key must be a string"
  | trailingComma => "trailing comma"
  | trailingText => "trailing characters"
  | malformedNumber => "invalid number"
  | numberTooLarge => "number out of range"
  | unknownEscape => "invalid escape"
  | controlCharacter => "control character (\\u0000-\\u001F) found while parsing a string"
  | loneSurrogate => "lone leading surrogate in hex escape"
  | unfinishedSurrogate => "unexpected end of hex escape"
  | nestedTooDeep => "recursion limit exceeded"
  | wrongKind found expected => s!"invalid type: {found.text}, expected {expected.text}"
  | outOfRange n =>
    s!"invalid value: {Found.numberText (.whole n)}, expected {Expected.int32.text}"
  | duplicateField name => s!"duplicate field `{name}`"

/-- A cause and the place where it was noticed. -/
structure Fault where
  cause : Cause
  position : Position
deriving DecidableEq

/-- The message that reports a fault. -/
def Fault.message (f : Fault) : String :=
  s!"{f.cause.text} at {f.position.describe}"

end SchemaSpans
