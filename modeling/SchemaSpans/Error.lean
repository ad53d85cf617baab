/-!
What can go wrong when locations are looked up or descriptor sets are loaded. That a
part has no recorded location is no error.
-/

namespace SchemaSpans

/-- A misuse of a path, a span or a name, or a failure to load a set. -/
inductive Error where
  /-- There is no descriptor set at this place. -/
  | setNotFound (path : String)
  /-- The descriptor set at this place cannot be read. -/
  | setMalformed (path detail : String)
  | fileNotInSet (name : String)
  | negativeComponent (index : Nat) (value : Int32)
  /-- A path leads to a field that the record named `scope` does not have. -/
  | unknownNumber (scope : String) (number : Int32)
  /-- No statement with a fixed path has this name. -/
  | unknownStatement (name : String)
  /-- A span of this length is neither of three nor of four numbers. -/
  | malformedSpan (length : Nat)
  /-- A file exists but cannot be read. -/
  | unreadable (detail : String)
  | other (detail : String)
deriving DecidableEq

/-- The message that reports an error. -/
def Error.message : Error → String
  | setNotFound path => s!"Descriptor set not found: {path}"
  | setMalformed path detail => s!"Failed to parse descriptor set at {path}: {detail}"
  | fileNotInSet name => s!"File not in descriptor set: {name}"
  | negativeComponent index value => s!"Negative path component {value.toInt} at index {index}"
  | unknownNumber scope number => s!"Unknown field number {number.toInt} in {scope}"
  | unknownStatement name => s!"Unknown file element: {name}"
  | malformedSpan length => s!"Malformed span: expected 3 or 4 integers, got {length}"
  | unreadable detail => s!"IO error: {detail}"
  | other detail => detail

end SchemaSpans
