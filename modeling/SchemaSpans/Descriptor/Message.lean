/-!
Messages of a schema file and their fields. A message may hold further messages, to
any depth, so its equality is defined here by recursion.
-/

namespace SchemaSpans

/-- A field of a message. -/
structure FieldDef where
  name : Option String := none
  number : Option Int32 := none
  jsonName : Option String := none
deriving DecidableEq, Inhabited

/-- A message: its fields and the messages declared inside it. -/
structure MessageDef where
  name : Option String := none
  fields : List FieldDef := []
  nested : List MessageDef := []
deriving Inhabited

namespace MessageDef

mutual

/-- Whether two messages are the same. -/
def same : MessageDef → MessageDef → Bool
  | ⟨name, fields, nested⟩, ⟨name', fields', nested'⟩ =>
    name == name' && (fields == fields' && sameAll nested nested')

/-- Whether two lists hold the same messages in the same order. -/
def sameAll : List MessageDef → List MessageDef → Bool
  | [], [] => true
  | m :: rest, m' :: rest' => same m m' && sameAll rest rest'
  | _, _ => false

end

mutual

theorem same_iff : ∀ m m', same m m' = true ↔ m = m'
  | ⟨name, fields, nested⟩, ⟨name', fields', nested'⟩ => by
    simp [same, sameAll_iff nested]

theorem sameAll_iff : ∀ ms ms', sameAll ms ms' = true ↔ ms = ms'
  | [], ms' => by cases ms' <;> simp [sameAll]
  | m :: rest, ms' => by cases ms' <;> simp [sameAll, same_iff m, sameAll_iff rest]

end

instance : DecidableEq MessageDef := fun m m' => decidable_of_iff _ (same_iff m m')

end MessageDef

end SchemaSpans
