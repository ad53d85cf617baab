import SchemaSpans.Json.Equality

/-! What can be said of a value at every depth: that its objects are maps, with keys in
strictly ascending order, and that its numbers are whole. Insertion keeps the order of
keys, and a member whose key comes behind all others is appended. -/

namespace SchemaSpans

namespace Text

theorem precedes_trans {r s t : String} (h₁ : precedes r s = true) (h₂ : precedes s t = true) :
    precedes r t = true := by
  rw [precedes, decide_eq_true_eq] at *
  exact List.lt_trans h₁ h₂

theorem precedes_irrefl (s : String) : ¬ precedes s s = true := by
  rw [precedes, decide_eq_true_eq]
  exact List.lt_irrefl (bytes s)

theorem precedes_total {s t : String} (hne : s ≠ t) (h : ¬ precedes s t = true) :
    precedes t s = true := by
  rw [precedes, decide_eq_true_eq] at *
  rcases List.le_iff_lt_or_eq.mp (List.not_lt.mp h) with hlt | heq
  · exact hlt
  · exact absurd (bytes_injective heq).symm hne

end Text

namespace Members

/-- The keys ascend strictly in the order of their bytes, so none of them is there twice. -/
def Ascending (members : Members) : Prop :=
  (keys members).Pairwise fun k l => Text.precedes k l

instance (members : Members) : Decidable (Ascending members) :=
  inferInstanceAs (Decidable (List.Pairwise _ _))

theorem ascending_nil : Ascending [] :=
  List.Pairwise.nil

theorem ascending_cons {k : String} {v : Json} {rest : Members} :
    Ascending ((k, v) :: rest) ↔
      (∀ l ∈ keys rest, Text.precedes k l = true) ∧ Ascending rest :=
  List.pairwise_cons

theorem mem_keys {members : Members} {k : String} :
    k ∈ keys members ↔ ∃ v, (k, v) ∈ members := by
  rw [keys, List.mem_map]
  constructor
  · rintro ⟨⟨l, v⟩, h, rfl⟩
    exact ⟨v, h⟩
  · rintro ⟨v, h⟩
    exact ⟨(k, v), h, rfl⟩

/-- Insertion brings in one member and nothing else. -/
theorem mem_of_mem_insert {members : Members} {k : String} {v : Json} {m : String × Json}
    (h : m ∈ insert k v members) : m = (k, v) ∨ m ∈ members := by
  induction members with
  | nil => exact Or.inl (List.mem_singleton.mp h)
  | cons head rest ih =>
    rw [insert] at h
    split at h
    · rcases List.mem_cons.mp h with h | h
      · exact Or.inl h
      · exact Or.inr (List.mem_cons_of_mem _ h)
    · split at h
      · exact List.mem_cons.mp h
      · rcases List.mem_cons.mp h with h | h
        · exact Or.inr (h ▸ List.mem_cons_self)
        · exact (ih h).imp_right (List.mem_cons_of_mem _)

theorem eq_or_mem_of_mem_keys_insert {members : Members} {k l : String} {v : Json}
    (h : l ∈ keys (insert k v members)) : l = k ∨ l ∈ keys members := by
  obtain ⟨w, hw⟩ := mem_keys.mp h
  rcases mem_of_mem_insert hw with h | h
  · exact Or.inl (congrArg Prod.fst h)
  · exact Or.inr (mem_keys.mpr ⟨w, h⟩)

theorem ascending_insert {members : Members} (h : Ascending members) (k : String) (v : Json) :
    Ascending (insert k v members) := by
  -- the three places where a key can go: over its own member, in front, or further behind
  induction members with
  | nil => exact ascending_cons.mpr ⟨fun l hl => (List.not_mem_nil hl).elim, ascending_nil⟩
  | cons head rest ih =>
    obtain ⟨hhead, hrest⟩ := ascending_cons.mp h
    rw [insert]
    split
    · rename_i heq
      exact ascending_cons.mpr ⟨heq ▸ hhead, hrest⟩
    · rename_i hne
      split
      · rename_i hbefore
        refine ascending_cons.mpr ⟨?_, h⟩
        intro l hl
        rcases List.mem_cons.mp hl with rfl | hl
        · exact hbefore
        · exact Text.precedes_trans hbefore (hhead l hl)
      · rename_i hbehind
        refine ascending_cons.mpr ⟨?_, ih hrest⟩
        intro l hl
        rcases eq_or_mem_of_mem_keys_insert hl with rfl | hl
        · exact Text.precedes_total (Ne.symm hne) hbehind
        · exact hhead l hl

theorem insert_eq_append {members : Members} {k : String}
    (h : ∀ l ∈ keys members, Text.precedes l k = true) (v : Json) :
    insert k v members = members ++ [(k, v)] := by
  induction members with
  | nil => rfl
  | cons head rest ih =>
    have hhead : Text.precedes head.1 k = true := h head.1 List.mem_cons_self
    have hne : ¬ head.1 = k := by
      intro heq
      rw [heq] at hhead
      exact Text.precedes_irrefl k hhead
    have hbehind : ¬ Text.precedes k head.1 = true := fun hbefore =>
      Text.precedes_irrefl k (Text.precedes_trans hbefore hhead)
    rw [insert, if_neg hne, if_neg hbehind, ih fun l hl => h l (List.mem_cons_of_mem _ hl)]
    rfl

/-- An insertion takes the place of the member with the same key, and of no other. -/
theorem mem_insert_iff {members : Members} (h : Ascending members) {k l : String} {v w : Json} :
    (l, w) ∈ insert k v members ↔ (l = k ∧ w = v) ∨ (l ≠ k ∧ (l, w) ∈ members) := by
  induction members with
  | nil => simp [insert]
  | cons head rest ih =>
    obtain ⟨n, u⟩ := head
    obtain ⟨hhead, hrest⟩ := ascending_cons.mp h
    have hirrefl := Text.precedes_irrefl k
    have hbehind (hl : (l, w) ∈ rest) : Text.precedes n l = true :=
      hhead l (mem_keys.mpr ⟨w, hl⟩)
    have htrans (hkn : Text.precedes k n = true) (hl : (l, w) ∈ rest) : Text.precedes k l = true :=
      Text.precedes_trans hkn (hbehind hl)
    rw [insert]
    split
    · grind
    · split
      · grind
      · rw [List.mem_cons, ih hrest]
        grind

theorem mem_keys_insert_iff {members : Members} {k l : String} {v : Json} :
    l ∈ keys (insert k v members) ↔ l = k ∨ l ∈ keys members := by
  induction members with
  | nil => simp [insert, keys]
  | cons head rest ih =>
    simp only [keys] at ih
    rw [insert]
    split
    · simp_all [keys]
    · split
      · simp [keys]
      · simp only [keys, List.map_cons, List.mem_cons, ih, or_left_comm]

/-- Two members with different keys can be put in either order. -/
theorem insert_comm {k l : String} (hne : k ≠ l) (v w : Json) (members : Members) :
    (members.insert k v).insert l w = (members.insert l w).insert k v := by
  have hkl : Text.precedes k l = true → ¬ Text.precedes l k = true := fun hkl hlk =>
    Text.precedes_irrefl k (Text.precedes_trans hkl hlk)
  have hlk : ¬ Text.precedes k l = true → Text.precedes l k = true := Text.precedes_total hne
  induction members with
  | nil => grind [insert]
  | cons m members ih =>
    obtain ⟨n, u⟩ := m
    have hkn : Text.precedes k l = true → Text.precedes l n = true → Text.precedes k n = true :=
      Text.precedes_trans
    have hln : Text.precedes l k = true → Text.precedes k n = true → Text.precedes l n = true :=
      Text.precedes_trans
    grind [insert]

/-- The first part of ascending members comes before the member behind it. -/
theorem precedes_of_ascending_append {before after : Members} {k : String} {v : Json}
    (h : Ascending (before ++ (k, v) :: after)) : ∀ l ∈ keys before, Text.precedes l k = true := by
  rw [Ascending, keys, List.map_append, List.map_cons] at h
  intro l hl
  exact (List.pairwise_append.mp h).2.2 l hl k List.mem_cons_self

end Members

namespace Json

mutual

/-- Whether `p` holds of a value and of every value inside it. -/
def everywhere (p : Json → Bool) : Json → Bool
  | list items => p (list items) && everywhereInItems p items
  | object members => p (object members) && everywhereInMembers p members
  | v => p v

def everywhereInItems (p : Json → Bool) : List Json → Bool
  | [] => true
  | v :: rest => everywhere p v && everywhereInItems p rest

def everywhereInMembers (p : Json → Bool) : List (String × Json) → Bool
  | [] => true
  | (_, v) :: rest => everywhere p v && everywhereInMembers p rest

end

theorem everywhere_list {p : Json → Bool} {items : List Json} :
    (list items).everywhere p = true ↔
      p (list items) = true ∧ ∀ v ∈ items, v.everywhere p = true := by
  have hitems : everywhereInItems p items = true ↔ ∀ v ∈ items, v.everywhere p = true := by
    induction items with
    | nil => simp [everywhereInItems]
    | cons v rest ih => simp [everywhereInItems, ih]
  rw [everywhere, Bool.and_eq_true, hitems]

theorem everywhere_object {p : Json → Bool} {members : Members} :
    (object members).everywhere p = true ↔
      p (object members) = true ∧ ∀ m ∈ members, m.2.everywhere p = true := by
  have hmembers : everywhereInMembers p members = true ↔
      ∀ m ∈ members, m.2.everywhere p = true := by
    induction members with
    | nil => simp [everywhereInMembers]
    | cons m rest ih =>
      rw [everywhereInMembers, Bool.and_eq_true, ih]
      simp
  rw [everywhere, Bool.and_eq_true, hmembers]

/-- Whether a value is no object, or one with strictly ascending keys. -/
def hasAscendingKeys : Json → Bool
  | object members => decide (Members.Ascending members)
  | _ => true

/-- Every object in a value, and the value itself if it is one, has ascending keys. -/
def IsOrdered (v : Json) : Prop :=
  v.everywhere hasAscendingKeys = true

/-- Whether a value is no number with a fraction or an exponent. -/
def isNotFractional : Json → Bool
  | number (.fractional _) => false
  | _ => true

/-- Every number in a value is a whole number. -/
def IsWhole (v : Json) : Prop :=
  v.everywhere isNotFractional = true

instance (v : Json) : Decidable v.IsOrdered :=
  inferInstanceAs (Decidable (_ = true))

instance (v : Json) : Decidable v.IsWhole :=
  inferInstanceAs (Decidable (_ = true))

theorem isOrdered_object {members : Members} :
    (object members).IsOrdered ↔ Members.Ascending members ∧ ∀ m ∈ members, m.2.IsOrdered := by
  rw [IsOrdered, everywhere_object, hasAscendingKeys, decide_eq_true_eq]
  rfl

theorem isOrdered_list {items : List Json} :
    (list items).IsOrdered ↔ ∀ v ∈ items, v.IsOrdered := by
  rw [IsOrdered, everywhere_list]
  exact and_iff_right rfl

theorem isWhole_object {members : Members} :
    (object members).IsWhole ↔ ∀ m ∈ members, m.2.IsWhole := by
  rw [IsWhole, everywhere_object]
  exact and_iff_right rfl

theorem isWhole_list {items : List Json} :
    (list items).IsWhole ↔ ∀ v ∈ items, v.IsWhole := by
  rw [IsWhole, everywhere_list]
  exact and_iff_right rfl

theorem isNotFractional_of_isWhole {v : Json} (h : v.IsWhole) : v.isNotFractional = true := by
  match v with
  | list items | object members => rfl
  | null | bool _ | number _ | string _ => exact h

theorem not_isWhole_fractional (x : Double) : ¬ (number (.fractional x)).IsWhole :=
  Bool.false_ne_true

theorem depth_list_le_iff {items : List Json} {n : Nat} :
    (list items).depth ≤ n + 1 ↔ ∀ v ∈ items, v.depth ≤ n := by
  have hitems : depthOfItems items ≤ n ↔ ∀ v ∈ items, v.depth ≤ n := by
    induction items with
    | nil => simp [depthOfItems]
    | cons v rest ih => rw [depthOfItems, Nat.max_le, ih, List.forall_mem_cons]
  rw [depth, Nat.add_le_add_iff_right, hitems]

theorem depth_object_le_iff {members : Members} {n : Nat} :
    (object members).depth ≤ n + 1 ↔ ∀ m ∈ members, m.2.depth ≤ n := by
  have hmembers : depthOfMembers members ≤ n ↔ ∀ m ∈ members, m.2.depth ≤ n := by
    induction members with
    | nil => simp [depthOfMembers]
    | cons m rest ih => rw [depthOfMembers, Nat.max_le, ih, List.forall_mem_cons]
  rw [depth, Nat.add_le_add_iff_right, hmembers]

end Json

end SchemaSpans
