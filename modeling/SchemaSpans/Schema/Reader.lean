import SchemaSpans.Reader.Skip
import SchemaSpans.Schema.Draft

/-!
Reading records. A record is an object whose members are its fields in any order, or
a list of its first fields in their order. The same reader serves every type of
record; what differs between them is in the tables of fields.
-/

namespace SchemaSpans.Reader

/-- The readers for what stands between brackets. -/
structure Inside where
  /-- Reads a member of an open record that is none of its fields. -/
  json : Reader Json
  value : (v : ValueType) → Reader v.Value

/-- Reads what a field is given as. Only an absent value may be `null`. -/
def fieldValue (value : (v : ValueType) → Reader v.Value) : (type : FieldType) → Reader type.Value
  | .optional v => do
    if (← start) = some .null then
      nullWord
      pure none
    else
      let given ← value v
      pure (some given)
  | .repeated v => value (.list v)

/-- Stops behind a key that names a field for the second time. -/
def duplicate {α : Type} (name : String) : Reader α := do
  blanks
  -- an object that ends here, with no value for the key, is read to its end
  let _ ← skipIf Ascii.closeBrace
  fail (.duplicateField name)

variable {t : RecordType}

/-- Reads one member of a record. -/
def member (inside : Inside) (d : Draft t) : Reader (Draft t) := do
  let k ← key
  match t.field? k with
  | some f =>
    if (d.given f).isSome then duplicate (t.spec f).name
    else
      colon
      let value ← fieldValue inside.value (t.spec f).type
      pure (d.give f value)
  | none =>
    colon
    if t.isOpen then
      let value ← inside.json
      pure (d.keep k value)
    else
      skip
      pure d

/-- Reads the end of a list that holds all fields of a record. -/
def fullListEnd : Reader Unit := do
  match ← token with
  | none => fail .endInList
  | some b =>
    if b = Ascii.closeBracket then
      let _ ← next
    else if b = Ascii.comma then
      let _ ← next
      if (← token) = some Ascii.closeBracket then reject .trailingComma
      else reject .trailingText
    else reject .trailingText

/-- Reads the comma in front of an element of a list, unless it is the first. -/
def separator (isFirst : Bool) : Reader Unit := do
  if isFirst then pure ()
  else if ← skipIf Ascii.comma then Bracket.notEnding Ascii.closeBracket
  else reject .expectedListEnd

/-- Reads the given fields from the elements of a list; the list may end early. -/
def elements (inside : Inside) (isFirst : Bool) : List t.Field → Draft t → Reader (Draft t)
  | [], d => do
    fullListEnd
    pure d
  | f :: fields, d => do
    match ← token with
    | none => fail .endInList
    | some b =>
      if b = Ascii.closeBracket then
        let _ ← next
        pure d
      else
        separator isFirst
        let value ← fieldValue inside.value (t.spec f).type
        elements inside false fields (d.give f value)

/-- Reads a record; `inside` reads what stands between its brackets, if it may have any. -/
def record (inside : Option Inside) (t : RecordType) : Reader t.Value := do
  match ← start with
  | some .object => descend inside fun inside => do
    let d ← Bracket.object.read (member inside) (Draft.empty t)
    pure d.finish
  | some .list =>
    if t.isOpen then mismatch (.record t.name) (some .list)
    else descend inside fun inside => do
      let d ← elements inside true t.fields (Draft.empty t)
      pure d.finish
  | other => mismatch (.record t.name) other

/-- Reads a list; `inside` reads its elements, if it may have any. -/
def list (inside : Option Inside) (v : ValueType) : Reader (List v.Value) := do
  match ← start with
  | some .list => descend inside fun inside => Bracket.list.readList (inside.value v)
  | other => mismatch .list other

/-- Reads a value; `inside` reads what stands between its brackets, if it may have any. -/
def valueWith (inside : Option Inside) : (v : ValueType) → Reader v.Value
  | .string => string
  | .int32 => int32
  | .record t => record inside t
  | .list v => list inside v

/-- Reads a value with at most `allowance` brackets open at once. -/
def value : Nat → (v : ValueType) → Reader v.Value
  | 0, v => valueWith none v
  | allowance + 1, v =>
    valueWith (some { json := kept allowance, value := fun v => value allowance v }) v

/-- How many brackets may be open at once. -/
def maxDepth : Nat := 127

/-- Reads past the blanks at the end of a text, behind which nothing may follow. -/
def textEnd : Reader Unit := do
  match ← token with
  | none => pure ()
  | some _ => reject .trailingText

/-- Reads a text that holds one record. -/
def whole (t : RecordType) : Reader t.Value := do
  let r ← value maxDepth (.record t)
  textEnd
  pure r

end SchemaSpans.Reader
