import SchemaSpans.Text.Bytes

/-!
The working directory that descriptor sets are loaded from: files and directories
below it, and what comes of reading the file at a path.
-/

namespace SchemaSpans

/-- What a name in a directory stands for. -/
inductive Entry where
  | file (content : List UInt8)
  | directory
deriving DecidableEq

/-- Why there is no text to be had at a path. -/
inductive ReadFailure where
  | notFound
  | nulInPath
  /-- The path or one of its components is too long. -/
  | tooLong
  | notDirectory
  | isDirectory
  | notText
deriving DecidableEq

/-- The message that reports a failure to read. -/
def ReadFailure.message : ReadFailure → String
  | notFound => "No such file or directory (os error 2)"
  | nulInPath => "file name contained an unexpected NUL byte"
  | tooLong => "File name too long (os error 36)"
  | notDirectory => "Not a directory (os error 20)"
  | isDirectory => "Is a directory (os error 21)"
  | notText => "stream did not contain valid UTF-8"

/-- A working directory: entries by the names that lead to them. -/
structure Workspace where
  entries : List (List String × Entry) := []

namespace Workspace

/-- The components of a path; an empty one where two slashes meet or one stands at an end. -/
def components (path : String) : List String :=
  path.splitOn "/"

/-- The workspace with entries at these paths. -/
def ofEntries (entries : List (String × Entry)) : Workspace where
  entries := entries.map fun (path, entry) =>
    ((components path).filter fun c => c ≠ "" ∧ c ≠ ".", entry)

/--
The entry that these names lead to. Names that lead on to another entry stand for a
directory.
-/
def entry? (w : Workspace) (names : List String) : Option Entry :=
  match w.entries.lookup names with
  | some e => some e
  | none =>
    if names.isEmpty || w.entries.any (fun (longer, _) => names.isPrefixOf longer) then
      some .directory
    else none

/-- Where a path has led so far: to a directory inside the workspace, or out of it. -/
inductive Place where
  | inside (names : List String)
  | outside

/-- The directory above a place. -/
def Place.parent : Place → Place
  | inside [] => outside
  | inside names => inside names.dropLast
  | outside => outside

/-- What a name stands for at a place. Nothing is known outside the workspace. -/
def lookup (w : Workspace) (name : String) : Place → Option Entry
  | .inside names => w.entry? (names ++ [name])
  | .outside => none

/-- The place one name further down. -/
def Place.child (name : String) : Place → Place
  | inside names => inside (names ++ [name])
  | outside => outside

/-- The greatest number of bytes in one name. -/
def maxNameSize : Nat := 255

/-- The greatest number of bytes in a whole path. -/
def maxPathSize : Nat := 4095

/--
Follows a path from a directory to the content of a file, name by name. The first name
that cannot be followed decides why there is nothing to read.
-/
def follow (w : Workspace) (place : Place) : List String → Except ReadFailure (List UInt8)
  | [] => .error .isDirectory
  | name :: rest =>
    if name = "" ∨ name = "." then w.follow place rest
    else if name = ".." then w.follow place.parent rest
    else if maxNameSize < name.utf8ByteSize then .error .tooLong
    else
      match w.lookup name place with
      | none => .error .notFound
      | some .directory => w.follow (place.child name) rest
      | some (.file content) => if rest.isEmpty then .ok content else .error .notDirectory

/--
The content of the file at a path. The size of the whole path is checked before it is
followed, that of a name only when the path has led to it.
-/
def contentAt (w : Workspace) (path : String) : Except ReadFailure (List UInt8) :=
  if path = "" then .error .notFound
  else if path.toList.contains '\x00' then .error .nulInPath
  else if maxPathSize < path.utf8ByteSize then .error .tooLong
  else
    let names := components path
    -- a path that begins with a slash does not begin in the workspace
    w.follow (if names.head? = some "" then .outside else .inside []) names

/-- The text of the file at a path. -/
def textAt (w : Workspace) (path : String) : Except ReadFailure String := do
  let content ← w.contentAt path
  match Text.ofBytes? content with
  | some text => .ok text
  | none => .error .notText

end Workspace

end SchemaSpans
