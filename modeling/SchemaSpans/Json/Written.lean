import SchemaSpans.Json.Basic
import SchemaSpans.Text.Shown

/-!
The text of a JSON value: no blanks, members in the order in which they are kept,
and only those characters escaped that a quoted string cannot hold as they are.
-/

namespace SchemaSpans.Json

/-- A character as it is written between quotes. -/
def escaped (c : Char) : List Char :=
  match c with
  | '"' => ['\\', '"']
  | '\\' => ['\\', '\\']
  | '\x08' => ['\\', 'b']
  | '\x0c' => ['\\', 'f']
  | '\n' => ['\\', 'n']
  | '\r' => ['\\', 'r']
  | '\t' => ['\\', 't']
  | c =>
    if c.toNat < 0x20 then
      ['\\', 'u', '0', '0', Nat.digitChar (c.toNat / 16), Nat.digitChar (c.toNat % 16)]
    else [c]

/-- A string between quotes. -/
def quoted (s : String) : List Char :=
  '"' :: s.toList.flatMap escaped ++ ['"']

mutual

/-- The characters of a value. -/
def written : Json → List Char
  | null => ['n', 'u', 'l', 'l']
  | bool true => ['t', 'r', 'u', 'e']
  | bool false => ['f', 'a', 'l', 's', 'e']
  | number n => n.written
  | string s => quoted s
  | list [] => ['[', ']']
  | list (value :: rest) => '[' :: written value ++ writtenItems rest
  | object [] => ['\x7b', '\x7d']
  | object ((key, value) :: rest) =>
    '\x7b' :: quoted key ++ ':' :: written value ++ writtenMembers rest

/-- The items that follow another one, and the end of their list. -/
def writtenItems : List Json → List Char
  | [] => [']']
  | value :: rest => ',' :: written value ++ writtenItems rest

/-- The members that follow another one, and the end of their object. -/
def writtenMembers : List (String × Json) → List Char
  | [] => ['\x7d']
  | (key, value) :: rest =>
    ',' :: quoted key ++ ':' :: written value ++ writtenMembers rest

end

/-- The text of a value. -/
def render (value : Json) : String :=
  String.ofList value.written

end SchemaSpans.Json
