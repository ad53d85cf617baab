import SchemaSpans.Location.Lookup

/-! The first record of a path. A lookup answers with it and notes nothing down; if there is
none, the lookup says so in the log. What a span accessor makes of it depends on its raw span
alone. -/

namespace SchemaSpans

namespace SchemaFile

/-- The record is the first one of a file that has this path. -/
def IsFirst (f : SchemaFile) (path : DescriptorPath) (r : LocationRecord) : Prop :=
  r.path = path ∧ ∃ before after, f.records = before ++ r :: after ∧ ∀ r' ∈ before, r'.path ≠ path

/-- No record of a file has this path. -/
def HasNoRecord (f : SchemaFile) (path : DescriptorPath) : Prop :=
  ∀ r ∈ f.records, r.path ≠ path

variable {f : SchemaFile} {path : DescriptorPath} {r : LocationRecord}

theorem find?_eq_some_iff :
    (f.records.find? fun r => r.path = path) = some r ↔ f.IsFirst path r := by
  rw [List.find?_eq_some_iff_append, IsFirst]
  simp only [decide_eq_true_eq, Bool.not_eq_true', decide_eq_false_iff_not, ne_eq]

theorem find?_eq_none_iff :
    (f.records.find? fun r => r.path = path) = none ↔ f.HasNoRecord path := by
  rw [List.find?_eq_none, HasNoRecord]
  simp only [decide_eq_true_eq, ne_eq]

theorem isFirst_or_hasNoRecord (f : SchemaFile) (path : DescriptorPath) :
    (∃ r, f.IsFirst path r) ∨ f.HasNoRecord path := by
  cases h : f.records.find? fun r => r.path = path with
  | some r => exact Or.inl ⟨r, find?_eq_some_iff.mp h⟩
  | none => exact Or.inr (find?_eq_none_iff.mp h)

theorem IsFirst.unique {r' : LocationRecord} (h : f.IsFirst path r) (h' : f.IsFirst path r') :
    r = r' :=
  Option.some.inj ((find?_eq_some_iff.mpr h).symm.trans (find?_eq_some_iff.mpr h'))

theorem not_hasNoRecord_of_isFirst (h : f.IsFirst path r) : ¬ f.HasNoRecord path := by
  intro hnone
  have hsome := find?_eq_some_iff.mpr h
  rw [find?_eq_none_iff.mpr hnone] at hsome
  cases hsome

/-- What is noted down when nothing is found does not change what is found. -/
theorem value_find_eq_find? (f : SchemaFile) (path : DescriptorPath) :
    (f.find path).value = f.records.find? fun r => r.path = path := by
  rw [find]
  split <;> rfl

theorem value_find_eq_some_iff : (f.find path).value = some r ↔ f.IsFirst path r := by
  rw [value_find_eq_find?, find?_eq_some_iff]

theorem value_find_eq_none_iff : (f.find path).value = none ↔ f.HasNoRecord path := by
  rw [value_find_eq_find?, find?_eq_none_iff]

theorem find_of_isFirst (h : f.IsFirst path r) : f.find path = pure (some r) := by
  rw [find, find?_eq_some_iff.mpr h]
  rfl

theorem find_of_hasNoRecord (h : f.HasNoRecord path) :
    f.find path = { value := none, log := [.noLocation path f.fileName] } := by
  rw [find, find?_eq_none_iff.mpr h]
  rfl

/-- What a lookup finds after a check that the path passes. -/
theorem resolve_of_check (h : path.check = .ok ()) :
    f.resolve path = { value := .ok (f.find path).value, log := (f.find path).log } := by
  rw [resolve, h]
  change Logged.mk _ ((f.find path).log ++ []) = _
  rw [List.append_nil]
  rfl

end SchemaFile

namespace Span

/-- A span is what its numbers record, and only three or four numbers record a span. -/
theorem ofList_eq_ok_iff {raw : List Int32} {span : Span} :
    ofList raw = .ok span ↔ span.toList = raw := by
  constructor
  · intro h
    match raw with
    | [_, _, _] | [_, _, _, _] =>
      cases h
      rfl
  · rintro rfl
    exact ofList_toList span

theorem ofList_eq_error {raw : List Int32} (h₃ : raw.length ≠ 3) (h₄ : raw.length ≠ 4) :
    ofList raw = .error (.malformedSpan raw.length) := by
  match raw with
  | [_, _, _] => exact absurd rfl h₃
  | [_, _, _, _] => exact absurd rfl h₄
  | [] | [_] | [_, _] | _ :: _ :: _ :: _ :: _ :: _ => rfl

theorem exists_toList_eq {raw : List Int32} (h : raw.length = 3 ∨ raw.length = 4) :
    ∃ span : Span, span.toList = raw := by
  match raw, h with
  | [line, startColumn, endColumn], _ => exact ⟨.singleLine line startColumn endColumn, rfl⟩
  | [startLine, startColumn, endLine, endColumn], _ =>
    exact ⟨.multiLine startLine startColumn endLine endColumn, rfl⟩

end Span

end SchemaSpans
