import SchemaSpans.Proofs.Schema.Fault
import SchemaSpans.Proofs.Schema.Members

/-! Fields that are given twice. A key that names a field for the second time ends the reading of an
object before anything behind it has been looked at. This apart, an object is refused only for one
of its keys or values. -/

namespace SchemaSpans

open Reader JsonTree

namespace JsonTree

variable {t : RecordType} {sense : Sense} {ms : List (QuotedText × JsonTree)}

end JsonTree

namespace Reader

variable {t : RecordType} {name : String}

end Reader

namespace RecordType

variable {t : RecordType} {text : String} {ms : List (QuotedText × JsonTree)}

end RecordType

end SchemaSpans
