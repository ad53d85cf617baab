import SchemaSpans.Schema.Reader
import SchemaSpans.Schema.Written

/-!
Records as texts: what a text reads as, why it is refused and where, and the text
that is written for a record.
-/

namespace SchemaSpans.RecordType

/-- The fault that a reader reports when it stops, by the bytes it has not read. -/
def faultAt (text : Input) (cause : Cause) (rest : Input) : Fault where
  cause := cause
  position := Position.ofOffset text (text.length - rest.length)

/-- Reads bytes as one record. -/
def readBytes (t : RecordType) (text : Input) : Except Fault t.Value :=
  match (Reader.whole t).run text with
  | .done r _ => .ok r
  | .stopped cause rest => .error (faultAt text cause rest)

/-- Reads a text as one record. -/
def read (t : RecordType) (text : String) : Except Fault t.Value :=
  t.readBytes (Text.bytes text)

/-- Writes a record. -/
def write (t : RecordType) (r : t.Value) : String :=
  (t.toJson r).render

/-- Whether what is written for a record reads as the same record. -/
def rereads (t : RecordType) (r : t.Value) : Bool :=
  match t.read (t.write r) with
  | .ok r' => r' = r
  | .error _ => false

end SchemaSpans.RecordType
