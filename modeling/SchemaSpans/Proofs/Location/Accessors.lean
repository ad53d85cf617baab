import SchemaSpans.Proofs.Location.First
import SchemaSpans.Session.Step

/-! The accessors for fixed places: a statement, the whole file, an import. They answer with
what the first record of the path says, word for word, or with the zero span and one line in
the log. A malformed record hides every later record of its path. -/

namespace SchemaSpans

/-- A place whose path is known without looking at the file. -/
inductive FixedPlace where
  | statement (s : Statement)
  | wholeFile
  | importAt (index : Nat) (h : index < 0x80000000)

namespace FixedPlace

def path : FixedPlace → DescriptorPath
  | statement s => s.path
  | wholeFile => []
  | importAt index _ => [FileNumber.dependency, Int32.ofNat index]

/-- The span that the accessor for a fixed place yields. -/
def span (f : SchemaFile) : FixedPlace → Logged Span
  | statement s => f.statementSpan s
  | wholeFile => f.wholeSpan
  | importAt index _ => f.importSpan index

theorem span_eq_spanAt (f : SchemaFile) (p : FixedPlace) : p.span f = f.spanAt p.path := by
  cases p with
  | statement | wholeFile => rfl
  | importAt index h => exact if_pos h

theorem check_path (p : FixedPlace) : p.path.check = .ok () := by
  cases p with
  | statement s => cases s <;> rfl
  | wholeFile => rfl
  | importAt index h =>
    -- an index within 32 bits is no negative component
    have hindex : ¬ Int32.ofNat index < 0 := by
      rw [Int32.lt_iff_toInt_lt, Int32.toInt_ofNat_of_lt h]
      exact Int.not_lt.mpr (Int.natCast_nonneg index)
    have hnegative : DescriptorPath.firstNegative? 0 (path (importAt index h)) = none := by
      rw [path, DescriptorPath.firstNegative?, if_neg (by decide), DescriptorPath.firstNegative?,
        if_neg hindex, DescriptorPath.firstNegative?]
    rw [DescriptorPath.check, hnegative]
    rfl

end FixedPlace

namespace SchemaFile

variable {f : SchemaFile} {path : DescriptorPath} {r : LocationRecord}

theorem spanAt_of_isFirst (h : f.IsFirst path r) : f.spanAt path =
    match Span.ofList r.span with
    | .ok span => { value := span, log := [] }
    | .error e => { value := .zero, log := [.ignoredRecord f.fileName e] } := by
  rw [spanAt, find_of_isFirst h]
  change ((match Span.ofList r.span with
    | .ok span => pure span
    | .error e => _ : Logged Span)) = _
  cases Span.ofList r.span <;> rfl

theorem spanAt_of_wellFormed (h : f.IsFirst path r) {span : Span} (hspan : span.toList = r.span) :
    f.spanAt path = { value := span, log := [] } := by
  rw [spanAt_of_isFirst h, Span.ofList_eq_ok_iff.mpr hspan]

theorem spanAt_of_malformed (h : f.IsFirst path r) (h₃ : r.span.length ≠ 3)
    (h₄ : r.span.length ≠ 4) : f.spanAt path =
      { value := .zero, log := [.ignoredRecord f.fileName (.malformedSpan r.span.length)] } := by
  rw [spanAt_of_isFirst h, Span.ofList_eq_error h₃ h₄]

theorem spanAt_of_hasNoRecord (h : f.HasNoRecord path) : f.spanAt path =
    { value := .zero, log := [.noLocation path f.fileName] } := by
  rw [spanAt, find_of_hasNoRecord h]
  rfl

end SchemaFile

namespace Span

theorem toList_inj {s t : Span} : s.toList = t.toList ↔ s = t := by
  refine ⟨fun h => ?_, congrArg toList⟩
  have hs := ofList_toList s
  rw [h, ofList_toList] at hs
  exact (Except.ok.inj hs).symm

end Span

namespace FixedPlace

/-- The zero span is the answer when there is nothing usable, or when it was recorded. -/
theorem value_span_eq_zero_iff (f : SchemaFile) (p : FixedPlace) :
    (p.span f).value = .zero ↔ f.HasNoRecord p.path ∨
      ∃ r, f.IsFirst p.path r ∧
        ((r.span.length ≠ 3 ∧ r.span.length ≠ 4) ∨ r.span = [0, 0, 0]) := by
  rw [span_eq_spanAt]
  -- the first record is the only one that counts, so what some first record is like is what
  -- this one is like
  rcases f.isFirst_or_hasNoRecord p.path with ⟨r, hr⟩ | hnone
  · have hrecord : ¬ f.HasNoRecord p.path := SchemaFile.not_hasNoRecord_of_isFirst hr
    have hunique : (∃ r', f.IsFirst p.path r' ∧
          ((r'.span.length ≠ 3 ∧ r'.span.length ≠ 4) ∨ r'.span = [0, 0, 0])) ↔
        (r.span.length ≠ 3 ∧ r.span.length ≠ 4) ∨ r.span = [0, 0, 0] :=
      ⟨fun ⟨_, hr', h⟩ => hr.unique hr' ▸ h, fun h => ⟨r, hr, h⟩⟩
    rw [hunique, or_iff_right hrecord]
    by_cases hlength : r.span.length = 3 ∨ r.span.length = 4
    · obtain ⟨span, hspan⟩ := Span.exists_toList_eq hlength
      rw [SchemaFile.spanAt_of_wellFormed hr hspan, or_iff_right (by omega), ← hspan]
      exact Span.toList_inj.symm
    · rw [not_or] at hlength
      rw [SchemaFile.spanAt_of_malformed hr hlength.1 hlength.2]
      exact iff_of_true rfl (Or.inl hlength)
  · rw [SchemaFile.spanAt_of_hasNoRecord hnone]
    exact iff_of_true rfl (Or.inl hnone)

/-- The statements are listed with the spans that they have one by one. -/
theorem value_statementSpans (f : SchemaFile) : f.statementSpans.value =
    Statement.all.map fun s => (s, ((statement s).span f).value) := rfl

theorem log_statementSpans (f : SchemaFile) : f.statementSpans.log =
    Statement.all.flatMap fun s => ((statement s).span f).log := by
  simp only [SchemaFile.statementSpans, Statement.all, List.mapM, List.mapM.loop, Logged.log_bind,
    Logged.value_bind, Logged.log_pure, List.append_nil, List.flatMap_cons, List.flatMap_nil]
  rfl

theorem named?_statement (s : Statement) :
    Accessor.named? ("file_" ++ s.name) = some (.statement s) := by
  cases s <;> decide

/-- What is known of a fixed place. The first record of its path decides, also if it is
malformed and a later one is not; without a usable record the zero span stands in and one event
says why. The lookup with a check of the path never refuses and finds the same record, and so
do all other ways to ask for a statement. -/
theorem span_spec (f : SchemaFile) (p : FixedPlace) :
    (∀ r, f.IsFirst p.path r →
      (r.span.length = 3 ∨ r.span.length = 4 →
        (p.span f).value.toList = r.span ∧ (p.span f).log = []) ∧
      (r.span.length ≠ 3 → r.span.length ≠ 4 →
        p.span f =
          { value := .zero, log := [.ignoredRecord f.fileName (.malformedSpan r.span.length)] }) ∧
      f.resolve p.path = { value := .ok (some r), log := [] }) ∧
    (f.HasNoRecord p.path →
      p.span f = { value := .zero, log := [.noLocation p.path f.fileName] } ∧
      f.resolve p.path = { value := .ok none, log := [.noLocation p.path f.fileName] }) ∧
    ((p.span f).value = .zero ↔ f.HasNoRecord p.path ∨
      ∃ r, f.IsFirst p.path r ∧
        ((r.span.length ≠ 3 ∧ r.span.length ≠ 4) ∨ r.span = [0, 0, 0])) ∧
    (∀ s, p = .statement s →
      (f.resolve p.path).value = .ok (f.statementRecord s).value ∧
      (Accessor.named? ("file_" ++ s.name)).map (Session.access { current := f }) =
        some (p.span f)) ∧
    f.statementSpans =
      { value := Statement.all.map fun s => (s, ((statement s).span f).value)
        log := Statement.all.flatMap fun s => ((statement s).span f).log } := by
  have hresolve := SchemaFile.resolve_of_check (f := f) p.check_path
  refine ⟨fun r hr => ⟨fun hlength => ?_, fun h₃ h₄ => ?_, ?_⟩, fun hnone => ⟨?_, ?_⟩,
    value_span_eq_zero_iff f p, ?_, ?_⟩
  · obtain ⟨span, hspan⟩ := Span.exists_toList_eq hlength
    rw [span_eq_spanAt, SchemaFile.spanAt_of_wellFormed hr hspan]
    exact ⟨hspan, rfl⟩
  · rw [span_eq_spanAt, SchemaFile.spanAt_of_malformed hr h₃ h₄]
  · rw [hresolve, SchemaFile.find_of_isFirst hr]
    rfl
  · rw [span_eq_spanAt, SchemaFile.spanAt_of_hasNoRecord hnone]
  · rw [hresolve, SchemaFile.find_of_hasNoRecord hnone]
  · rintro s rfl
    rw [named?_statement]
    exact ⟨congrArg Logged.value hresolve, rfl⟩
  · rw [← value_statementSpans, ← log_statementSpans]

example : (Event.ignoredRecord "a.proto" (.malformedSpan 2)).line =
    "WARN Ignoring location record in a.proto: Malformed span: expected 3 or 4 integers, got 2" :=
  by decide

example : (Event.noLocation [3, 1] "a.proto").line =
    "TRACE No location for path [3, 1] in a.proto" := by decide

/-- A record with one number hides a well-formed one behind it. -/
theorem span_spec_malformed :
    let f : SchemaFile :=
      { name := some "a.proto"
        sourceInfo := some ⟨[{ path := [12], span := [1] }, { path := [12], span := [1, 0, 18] }]⟩ }
    (statement .syntaxVersion).span f =
      { value := .zero, log := [.ignoredRecord "a.proto" (.malformedSpan 1)] } := by
  intro f
  have hfirst : f.IsFirst (path (statement .syntaxVersion)) { path := [12], span := [1] } :=
    ⟨rfl, [], _, rfl, fun r hr => (List.not_mem_nil hr).elim⟩
  exact ((span_spec f (.statement .syntaxVersion)).1 _ hfirst).2.1 (by decide) (by decide)

end FixedPlace

end SchemaSpans
