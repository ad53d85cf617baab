import SchemaSpans.Json.Basic
import SchemaSpans.Reader.Bracket

/-!
JSON values that are kept whole. Every bracket takes from the number of brackets
that may still be opened, and a number that no double can hold is refused.
-/

namespace SchemaSpans.Reader

/-- Reads a key with its quotes. -/
def key : Reader String := do
  keyQuote
  quotedText

/-- Reads one member of an object and puts it among the others. -/
def keptMember (value : Reader Json) (members : Members) : Reader Members := do
  let k ← key
  colon
  let v ← value
  pure (members.insert k v)

/-- Reads a value; `inside` reads the values between its brackets, if it may have any. -/
def keptWith (inside : Option (Reader Json)) : Reader Json := do
  match ← start with
  | none => fail .endInValue
  | some .null =>
    nullWord
    pure .null
  | some .true =>
    trueWord
    pure (.bool true)
  | some .false =>
    falseWord
    pure (.bool false)
  | some .number =>
    let n ← number
    pure (.number n)
  | some .string =>
    let _ ← next
    let s ← quotedText
    pure (.string s)
  | some .list => descend inside fun value => do
    let items ← Bracket.list.readList value
    pure (.list items)
  | some .object => descend inside fun value => do
    let members ← Bracket.object.read (keptMember value) []
    pure (.object members)
  | some .other => reject .expectedValue

/-- Reads a value with at most `allowance` brackets open at once. -/
def kept : Nat → Reader Json
  | 0 => keptWith none
  | allowance + 1 => keptWith (some (kept allowance))

end SchemaSpans.Reader
