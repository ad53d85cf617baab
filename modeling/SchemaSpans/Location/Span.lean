import SchemaSpans.Descriptor.File
import SchemaSpans.Error

/-!
Spans of source text. Lines and columns count from zero and are kept as they were
recorded; an end column is the first one behind the span.
-/

namespace SchemaSpans

/-- Where a part of a file was written. -/
inductive Span where
  /-- A span that begins and ends on one line. -/
  | singleLine (line startColumn endColumn : Int32)
  /-- A span recorded with both of its lines. -/
  | multiLine (startLine startColumn endLine endColumn : Int32)
deriving DecidableEq

namespace Span

/-- The span that stands for an unknown place: nothing, at the very start of a file. -/
def zero : Span :=
  .singleLine 0 0 0

instance : Inhabited Span := ⟨zero⟩

/-- The span that three or four numbers record. -/
def ofList : List Int32 → Except Error Span
  | [line, startColumn, endColumn] => .ok (.singleLine line startColumn endColumn)
  | [startLine, startColumn, endLine, endColumn] =>
    .ok (.multiLine startLine startColumn endLine endColumn)
  | raw => .error (.malformedSpan raw.length)

/-- The numbers that record a span. -/
def toList : Span → List Int32
  | singleLine line startColumn endColumn => [line, startColumn, endColumn]
  | multiLine startLine startColumn endLine endColumn =>
    [startLine, startColumn, endLine, endColumn]

theorem ofList_toList (s : Span) : ofList s.toList = .ok s := by
  cases s <;> rfl

/-- The line on which a span begins. -/
def startLine : Span → Int32
  | singleLine line _ _ => line
  | multiLine line _ _ _ => line

/-- The column at which a span begins. -/
def startColumn : Span → Int32
  | singleLine _ column _ => column
  | multiLine _ column _ _ => column

/-- The line on which a span ends. -/
def endLine : Span → Int32
  | singleLine line _ _ => line
  | multiLine _ _ line _ => line

/-- The column at which a span ends. -/
def endColumn : Span → Int32
  | singleLine _ _ column => column
  | multiLine _ _ _ column => column

/-- Whether a span was recorded with both of its lines. -/
def isMultiLine : Span → Bool
  | singleLine .. => false
  | multiLine .. => true

/-- A coordinate as people count: from one, and beyond 32 bits if need be. -/
def writtenFromOne (n : Int32) : List Char :=
  Number.writtenInt (n.toInt + 1)

/-- The characters of a span as messages show it. -/
def written (s : Span) : List Char :=
  writtenFromOne s.startLine ++ ':' :: writtenFromOne s.startColumn ++
    '-' :: writtenFromOne s.endLine ++ ':' :: writtenFromOne s.endColumn

/-- A span as messages show it, such as `2:1-2:19`. -/
def describe (s : Span) : String :=
  String.ofList s.written

/-- A span as a JSON value: the numbers that record it. -/
def toJson (s : Span) : Json :=
  .list (s.toList.map .ofInt32)

end Span

/-- The span of a location record. -/
def LocationRecord.span? (r : LocationRecord) : Except Error Span :=
  Span.ofList r.span

end SchemaSpans
