import SchemaSpans.Descriptor.Message
import SchemaSpans.Json.Equality

/-!
Schema files as a compiler describes them: what a file declares, its options, and
the table that tells where each of its parts was written.
-/

namespace SchemaSpans

/--
The options of a file. Those that name a package or a prefix in some language have
fields of their own; all others are kept as they are, by ascending key.
-/
structure FileOptions where
  javaPackage : Option String := none
  javaOuterClassname : Option String := none
  goPackage : Option String := none
  objcClassPrefix : Option String := none
  csharpNamespace : Option String := none
  swiftPrefix : Option String := none
  phpClassPrefix : Option String := none
  phpNamespace : Option String := none
  phpMetadataNamespace : Option String := none
  rubyPackage : Option String := none
  other : Members := []
deriving DecidableEq, Inhabited

/-- One record of a location table: the path of a part and where it was written. -/
structure LocationRecord where
  path : List Int32 := []
  /-- Line and columns as they were recorded; three or four numbers if well formed. -/
  span : List Int32 := []
  leadingComments : Option String := none
  trailingComments : Option String := none
  /-- Comments further up that belong to no part. -/
  leadingDetachedComments : List String := []
deriving DecidableEq, Inhabited

/-- The location table of a file, in the order in which it was recorded. -/
structure SourceInfo where
  records : List LocationRecord := []
deriving DecidableEq, Inhabited

/-- A schema file. -/
structure SchemaFile where
  name : Option String := none
  package : Option String := none
  /-- The names of the imported files, in order. -/
  dependencies : List String := []
  messages : List MessageDef := []
  options : Option FileOptions := none
  /-- Absent when the locations were not recorded. -/
  sourceInfo : Option SourceInfo := none
  syntaxVersion : Option String := none
deriving DecidableEq, Inhabited

/-- A set of schema files, in order. -/
structure FileSet where
  files : List SchemaFile := []
deriving DecidableEq, Inhabited

namespace SchemaFile

/-- The name of a file, empty if it has none. -/
def fileName (f : SchemaFile) : String :=
  f.name.getD ""

/-- Whether the file has a location table, be it an empty one. -/
def hasSourceInfo (f : SchemaFile) : Bool :=
  f.sourceInfo.isSome

/-- The location records of a file; none if it has no table. -/
def records (f : SchemaFile) : List LocationRecord :=
  (f.sourceInfo.map SourceInfo.records).getD []

end SchemaFile

namespace FileSet

/-- The first file that has exactly this name. -/
def fileNamed? (s : FileSet) (name : String) : Option SchemaFile :=
  s.files.find? fun f => f.name = some name

/-- The set with one more file behind all others. -/
def push (s : FileSet) (f : SchemaFile) : FileSet :=
  { s with files := s.files ++ [f] }

end FileSet

end SchemaSpans
