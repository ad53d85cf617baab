import SchemaSpans.Error
import SchemaSpans.Number.Basic
import SchemaSpans.Path.Numbers

/-!
Paths to the parts of a schema file. A path is a field number, followed by an index
where the field holds a list, and so on downwards; the empty path leads to the whole
file. Only its first two components are looked up in tables, deeper ones are taken as
they are.
-/

namespace SchemaSpans

/-- The path of a part of a schema file. -/
abbrev DescriptorPath := List Int32

namespace DescriptorPath

/-- The first negative component and its index, where the first component has index `start`. -/
def firstNegative? (start : Nat) : DescriptorPath → Option (Nat × Int32)
  | [] => none
  | c :: rest => if c < 0 then some (start, c) else firstNegative? (start + 1) rest

/-- Whether a number belongs to an option, listed or defined by a schema. -/
def isOptionNumber (n : Int32) : Bool :=
  OptionNumber.firstExtension ≤ n || OptionNumber.all.contains n

/-- Checks the numbers at the first two levels of a path. -/
def checkNumbers : DescriptorPath → Except Error Unit
  | [] => .ok ()
  | root :: rest =>
    if FileNumber.all.contains root then
      match rest with
      | [] => .ok ()
      | option :: _ =>
        if root = FileNumber.options && !isOptionNumber option then
          .error (.unknownNumber "FileOptions" option)
        else .ok ()
    else .error (.unknownNumber "FileDescriptorProto" root)

/--
Checks a path before it is used. A negative component anywhere is reported before
an unknown number.
-/
def check (p : DescriptorPath) : Except Error Unit :=
  match firstNegative? 0 p with
  | some (index, value) => .error (.negativeComponent index value)
  | none => checkNumbers p

/-- The components that follow another one, each behind a comma. -/
def writtenRest : DescriptorPath → List Char
  | [] => []
  | c :: rest => ',' :: ' ' :: Number.writtenInt c.toInt ++ writtenRest rest

/-- The components with commas between them. -/
def writtenComponents : DescriptorPath → List Char
  | [] => []
  | c :: rest => Number.writtenInt c.toInt ++ writtenRest rest

/-- A path as messages show it, such as `[4, 0, 2]`. -/
def describe (p : DescriptorPath) : String :=
  String.ofList ('[' :: writtenComponents p ++ [']'])

end DescriptorPath

end SchemaSpans
