import SchemaSpans.Descriptor.Edit
import SchemaSpans.Loading.Set
import SchemaSpans.Location.Lookup

/-!
A session keeps a set of files and one file that is being worked on. This module says
what can be asked of a session and what it answers; a reply is an answer or a failure,
with the events noted down on the way.
-/

namespace SchemaSpans

/-- The accessors of a file by name: one for the whole file and one for each
statement. -/
inductive Accessor where
  | wholeFile
  | statement (s : Statement)
deriving DecidableEq

/-- The accessor with this name, such as `file_location` or `file_package`. -/
def Accessor.named? (name : String) : Option Accessor :=
  if name = "file_location" then some wholeFile
  else (Statement.all.find? fun s => name = "file_" ++ s.name).map statement

/-- What can be asked of a session. -/
inductive Step where
  /-- Read a text as the new set. -/
  | parse (text source : String)
  /-- Load the new set from a file. -/
  | loadSet (path : String)
  /-- Load a set from a file and work on one of its files. -/
  | loadFile (path name : String)
  /-- Work on the file of the set that has this name. -/
  | select (name : String)
  /-- Append the file being worked on to the set. -/
  | push
  | describeSet
  | writeSet
  /-- Write the set and read it back. -/
  | reload
  /-- Work on a new file with this name. -/
  | new (name : String)
  /-- Work on a new file without a name. -/
  | blank
  | edit (change : Edit)
  /-- Read a text as the options of the file. -/
  | readOptions (text : String)
  | reverse
  | rotate (count : Nat)
  | describeFile
  | writeFile
  | otherOptions
  | records
  | find (path : DescriptorPath)
  | resolve (path : DescriptorPath)
  | recordOf (statement : String)
  | spanOf (statement : String)
  | statementSpans
  | importSpan (index : Nat)
  | access (accessor : Accessor)

/-- What is told about a set. -/
structure SetSummary where
  size : Nat
  isEmpty : Bool
  names : List (Option String)
deriving DecidableEq

/-- What is told about a file. -/
structure FileSummary where
  name : Option String
  fileName : String
  package : Option String
  syntaxVersion : Option String
  dependencies : List String
  messages : List (Option String)
  hasOptions : Bool
  hasSourceInfo : Bool
  recordCount : Nat
deriving DecidableEq

/-- What a session answers. -/
inductive Answer where
  | set (summary : SetSummary)
  | file (summary : FileSummary)
  /-- There is no such file. -/
  | nothing
  /-- Whether a set read back is the same. -/
  | same (isSame : Bool)
  /-- A set or a file as it is written. -/
  | text (written : String)
  /-- The keys of the options without fields of their own, if there are options. -/
  | keys (keys : Option (List String))
  | records (records : List LocationRecord)
  | record (record : Option LocationRecord)
  | span (span : Span)
  | lines (lines : List String)
deriving DecidableEq

/-- Why a step fails: a misuse or a failure to load, or options that cannot be read. -/
inductive Failure where
  | error (e : Error)
  | fault (f : Fault)
deriving DecidableEq

/-- The message that reports a failure. -/
def Failure.message : Failure → String
  | error e => e.message
  | fault f => f.message

/-- An answer or a failure, and what was noted down on the way to it. -/
abbrev Reply := Logged (Except Failure Answer)

/-- The set of files and the file being worked on. -/
structure Session where
  set : FileSet := {}
  current : SchemaFile := {}
deriving DecidableEq

/-- What is told about a set. -/
def FileSet.summary (s : FileSet) : SetSummary where
  size := s.files.length
  isEmpty := s.files.isEmpty
  names := s.files.map SchemaFile.name

/-- What is told about a file. -/
def SchemaFile.summary (f : SchemaFile) : FileSummary where
  name := f.name
  fileName := f.fileName
  package := f.package
  syntaxVersion := f.syntaxVersion
  dependencies := f.dependencies
  messages := f.messages.map MessageDef.name
  hasOptions := f.options.isSome
  hasSourceInfo := f.hasSourceInfo
  recordCount := f.records.length

/-- The line that tells where a statement was written. -/
def statementLine (s : Statement) (span : Span) : String :=
  s!"{s.name} {span.describe} {span.toJson.render}"

end SchemaSpans
