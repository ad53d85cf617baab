import SchemaSpans.Loading.Workspace
import SchemaSpans.Location.Log
import SchemaSpans.Schema.Text

/-!
Loading descriptor sets. A set that could be read is noted in the log, also when the
file that is wanted from it turns out not to be there.
-/

namespace SchemaSpans

/-- Reads a text as a set of files; `source` says where the text is from. -/
def FileSet.parse (text source : String) : Logged (Except Error FileSet) :=
  match RecordType.fileSet.read text with
  | .error fault => pure (.error (.setMalformed source fault.message))
  | .ok set => do
    Logged.note (.loaded set.files.length source)
    pure (.ok set)

namespace Workspace

/-- The error for a set that could not be read from `path`. -/
def loadError (path : String) : ReadFailure → Error
  | .notFound => .setNotFound path
  | failure => .unreadable failure.message

/-- Loads the descriptor set at a path. -/
def loadSet (w : Workspace) (path : String) : Logged (Except Error FileSet) :=
  match w.textAt path with
  | .error failure => pure (.error (loadError path failure))
  | .ok text => FileSet.parse text path

/-- Loads the descriptor set at a path and takes the file with this name from it. -/
def loadFile (w : Workspace) (path name : String) : Logged (Except Error SchemaFile) := do
  match ← w.loadSet path with
  | .error e => pure (.error e)
  | .ok set =>
    match set.fileNamed? name with
    | some f => pure (.ok f)
    | none => pure (.error (.fileNotInSet name))

end Workspace

end SchemaSpans
