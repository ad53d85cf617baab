import SchemaSpans.Number.Basic
import SchemaSpans.Text.Bytes

/-!
JSON values, with the members of an object kept in the order in which they are
written. Objects that are read have their keys in ascending byte order: every
member goes in through `Members.insert`, which also lets the last of two members
with one key win.
-/

namespace SchemaSpans

/-- A JSON value. -/
inductive Json where
  | null
  | bool (value : Bool)
  | number (value : Number)
  | string (value : String)
  | list (items : List Json)
  | object (members : List (String × Json))

/-- The members of an object. -/
abbrev Members := List (String × Json)

namespace Members

/-- Puts a member where its key belongs, in place of a member with the same key. -/
def insert (key : String) (value : Json) : Members → Members
  | [] => [(key, value)]
  | (k, v) :: rest =>
    if k = key then (key, value) :: rest
    else if Text.precedes key k then (key, value) :: (k, v) :: rest
    else (k, v) :: insert key value rest

/-- The keys, in order. -/
def keys (members : Members) : List String :=
  members.map Prod.fst

end Members

namespace Json

/-- A 32-bit integer as a JSON value. -/
def ofInt32 (i : Int32) : Json :=
  .number (.whole
    { val := i.toInt
      lower := by have := i.le_toInt; omega
      upper := by have := i.toInt_lt; omega })

mutual

/-- How many brackets and braces are open at once at the innermost place of a value. -/
def depth : Json → Nat
  | list items => depthOfItems items + 1
  | object members => depthOfMembers members + 1
  | _ => 0

/-- The greatest depth among the items of a list. -/
def depthOfItems : List Json → Nat
  | [] => 0
  | value :: rest => max (depth value) (depthOfItems rest)

/-- The greatest depth among the values of an object. -/
def depthOfMembers : List (String × Json) → Nat
  | [] => 0
  | (_, value) :: rest => max (depth value) (depthOfMembers rest)

end

end Json

end SchemaSpans
