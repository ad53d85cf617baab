import SchemaSpans.Location.Statement
import SchemaSpans.Location.Log
import SchemaSpans.Location.Span

/-!
Looking up where a part of a schema file was written. A record answers for a path
only if its own path is the same; of several records with one path the first counts.
The accessors for fixed paths never fail: without a usable record they answer with
the zero span, and say so in the log.
-/

namespace SchemaSpans.SchemaFile

/-- The first record with exactly this path. -/
def find (f : SchemaFile) (path : DescriptorPath) : Logged (Option LocationRecord) := do
  let found := f.records.find? fun r => r.path = path
  if found.isNone then Logged.note (.noLocation path f.fileName)
  pure found

/-- The first record with exactly this path, if the path is one that a file can have. -/
def resolve (f : SchemaFile) (path : DescriptorPath) :
    Logged (Except Error (Option LocationRecord)) := do
  match path.check with
  | .error e => pure (.error e)
  | .ok () =>
    let found ← f.find path
    pure (.ok found)

/-- The span recorded for a path, or the zero span if there is no usable record. -/
def spanAt (f : SchemaFile) (path : DescriptorPath) : Logged Span := do
  match ← f.find path with
  | none => pure Span.zero
  | some r =>
    match r.span? with
    | .ok span => pure span
    | .error e =>
      Logged.note (.ignoredRecord f.fileName e)
      pure Span.zero

/-- The record of a statement. -/
def statementRecord (f : SchemaFile) (s : Statement) : Logged (Option LocationRecord) :=
  f.find s.path

/-- The span of a statement. -/
def statementSpan (f : SchemaFile) (s : Statement) : Logged Span :=
  f.spanAt s.path

/-- All statements with their spans, in the order in which they are listed. -/
def statementSpans (f : SchemaFile) : Logged (List (Statement × Span)) :=
  Statement.all.mapM fun s => do
    let span ← f.statementSpan s
    pure (s, span)

/-- The span of the whole file. -/
def wholeSpan (f : SchemaFile) : Logged Span :=
  f.spanAt []

/-- The span of the import at an index; an index beyond 32 bits is not looked up. -/
def importSpan (f : SchemaFile) (index : Nat) : Logged Span :=
  if index < 0x80000000 then f.spanAt [FileNumber.dependency, Int32.ofNat index]
  else pure Span.zero

end SchemaSpans.SchemaFile
