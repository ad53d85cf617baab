import SchemaSpans.Json.Basic

/-!
Equality of JSON values is decidable: two values are compared item by item and
member by member.
-/

namespace SchemaSpans.Json

mutual

/-- Whether two values are the same. -/
def same : Json → Json → Bool
  | null, null => true
  | bool a, bool b => a == b
  | number a, number b => a == b
  | string a, string b => a == b
  | list a, list b => sameItems a b
  | object a, object b => sameMembers a b
  | _, _ => false

/-- Whether two lists hold the same items in the same order. -/
def sameItems : List Json → List Json → Bool
  | [], [] => true
  | v :: a, w :: b => same v w && sameItems a b
  | _, _ => false

/-- Whether two objects hold the same members in the same order. -/
def sameMembers : List (String × Json) → List (String × Json) → Bool
  | [], [] => true
  | (k, v) :: a, (l, w) :: b => k == l && (same v w && sameMembers a b)
  | _, _ => false

end

mutual

theorem same_iff : ∀ v w, same v w = true ↔ v = w
  | null, w => by cases w <;> simp [same]
  | bool a, w => by cases w <;> simp [same]
  | number a, w => by cases w <;> simp [same]
  | string a, w => by cases w <;> simp [same]
  | list a, w => by cases w <;> simp [same, sameItems_iff a]
  | object a, w => by cases w <;> simp [same, sameMembers_iff a]

theorem sameItems_iff : ∀ a b, sameItems a b = true ↔ a = b
  | [], b => by cases b <;> simp [sameItems]
  | v :: a, b => by cases b <;> simp [sameItems, same_iff v, sameItems_iff a]

theorem sameMembers_iff : ∀ a b, sameMembers a b = true ↔ a = b
  | [], b => by cases b <;> simp [sameMembers]
  | (k, v) :: a, b => by
    rcases b with _ | ⟨⟨l, w⟩, b⟩ <;>
      simp [sameMembers, same_iff v, sameMembers_iff a, and_assoc]

end

instance : DecidableEq Json := fun v w => decidable_of_iff _ (same_iff v w)

end SchemaSpans.Json
