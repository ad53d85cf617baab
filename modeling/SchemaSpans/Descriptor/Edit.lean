import SchemaSpans.Descriptor.File

/-!
Making a schema file by hand. Every edit sets one part of a file or appends to one,
and leaves all other parts as they are.
-/

namespace SchemaSpans

/-- A change to one part of a schema file. -/
inductive Edit where
  | package (value : String)
  | syntaxVersion (value : String)
  /-- One more import behind all others. -/
  | dependency (value : String)
  /-- One more message behind all others, with a name and nothing else. -/
  | message (name : String)
  | options (value : FileOptions)
  /-- A new location table in place of the old one. -/
  | sourceInfo (records : List LocationRecord)
deriving DecidableEq

namespace SchemaFile

/-- A file that has a name and nothing else. -/
def new (name : String) : SchemaFile :=
  { name := some name }

/-- The file after an edit. -/
def edit (f : SchemaFile) : Edit → SchemaFile
  | .package value => { f with package := some value }
  | .syntaxVersion value => { f with syntaxVersion := some value }
  | .dependency value => { f with dependencies := f.dependencies ++ [value] }
  | .message name => { f with messages := f.messages ++ [{ name := some name }] }
  | .options value => { f with options := some value }
  | .sourceInfo records => { f with sourceInfo := some ⟨records⟩ }

/-- The file with its location records rearranged, if it has a table. -/
def rearrange (f : SchemaFile) (order : List LocationRecord → List LocationRecord) :
    SchemaFile :=
  { f with sourceInfo := f.sourceInfo.map fun info => ⟨order info.records⟩ }

/-- The file with its location records in reverse order. -/
def reverseRecords (f : SchemaFile) : SchemaFile :=
  f.rearrange List.reverse

/-- The file with its location records moved `n` places to the front, all around. -/
def rotateRecords (f : SchemaFile) (n : Nat) : SchemaFile :=
  f.rearrange fun records => records.rotateLeft n

end SchemaFile

end SchemaSpans
