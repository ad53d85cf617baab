import SchemaSpans.Path.Basic

/-!
What is noted down along the way: a lookup that finds nothing, a record that cannot
be used, a set that has been loaded.
-/

namespace SchemaSpans

/-- Something worth a line in the log. -/
inductive Event where
  /-- A set of `count` files has been read from `path`. -/
  | loaded (count : Nat) (path : String)
  /-- A file has no record for a path. -/
  | noLocation (path : DescriptorPath) (fileName : String)
  /-- A record of a file is not used because of an error in it. -/
  | ignoredRecord (fileName : String) (error : Error)
deriving DecidableEq

namespace Event

/-- How important an event is. -/
def level : Event → String
  | loaded .. => "DEBUG"
  | noLocation .. => "TRACE"
  | ignoredRecord .. => "WARN"

/-- The message for an event. -/
def message : Event → String
  | loaded count path => s!"Loaded {count} file(s) from {path}"
  | noLocation path fileName => s!"No location for path {path.describe} in {fileName}"
  | ignoredRecord fileName error =>
    s!"Ignoring location record in {fileName}: {error.message}"

/-- The line for an event. -/
def line (e : Event) : String :=
  s!"{e.level} {e.message}"

end Event

/-- A value and the events noted down while it was worked out, in order. -/
structure Logged (α : Type) where
  value : α
  log : List Event := []
deriving DecidableEq

namespace Logged

instance : Monad Logged where
  pure value := { value }
  bind x next := { value := (next x.value).value, log := x.log ++ (next x.value).log }

/-- Notes down an event. -/
def note (e : Event) : Logged Unit :=
  { value := (), log := [e] }

variable {α β : Type}

@[simp] theorem value_pure (a : α) : (pure a : Logged α).value = a := rfl

@[simp] theorem log_pure (a : α) : (pure a : Logged α).log = [] := rfl

@[simp] theorem value_bind (x : Logged α) (next : α → Logged β) :
    (x >>= next).value = (next x.value).value := rfl

@[simp] theorem log_bind (x : Logged α) (next : α → Logged β) :
    (x >>= next).log = x.log ++ (next x.value).log := rfl

@[simp] theorem log_note (e : Event) : (note e).log = [e] := rfl

end Logged

end SchemaSpans
