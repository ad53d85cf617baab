import SchemaSpans.Proofs.Location.First

/-! Which entry of a location table answers for a path. It is the first one, counted by index,
whose path has the same length and the same components; there is nothing between an exact match
and none at all. The lookup with a check of the path refuses a path that fails the check without
a look at the table, and is the plain lookup for every other. -/

namespace SchemaSpans

/-- The path of a record has as many components as a path, and the same ones in their places. -/
def LocationRecord.AnswersFor (r : LocationRecord) (path : DescriptorPath) : Prop :=
  r.path.length = path.length ∧ ∀ k < path.length, r.path[k]? = path[k]?

theorem LocationRecord.answersFor_iff {r : LocationRecord} {path : DescriptorPath} :
    r.AnswersFor path ↔ r.path = path := by
  constructor
  · rintro ⟨hlength, hcomponents⟩
    refine List.ext_getElem? fun k => ?_
    rcases Nat.lt_or_ge k path.length with hk | hk
    · exact hcomponents k hk
    · -- behind the end of both there is no component to differ in
      rw [List.getElem?_eq_none hk, List.getElem?_eq_none (hlength ▸ hk)]
  · rintro rfl
    exact ⟨rfl, fun _ _ => rfl⟩

/-- The line for a lookup that finds nothing names the path and the file. -/
theorem Event.line_noLocation (path : DescriptorPath) (fileName : String) :
    (Event.noLocation path fileName).line =
      "TRACE No location for path " ++ path.describe ++ " in " ++ fileName := by
  have hstart : "TRACE" ++ " " ++ "No location for path " = "TRACE No location for path " := by
    decide
  change "TRACE" ++ " " ++ ("No location for path " ++ path.describe ++ " in " ++ fileName) = _
  rw [← hstart]
  simp only [String.append_assoc]

namespace SchemaFile

/-- The entry of the table at index `i` holds the record, which answers for the path, and no
entry with a smaller index answers for it. -/
structure IsFirstEntry (f : SchemaFile) (path : DescriptorPath) (i : Nat) (r : LocationRecord) :
    Prop where
  getElem?_eq : f.records[i]? = some r
  answersFor : r.AnswersFor path
  least : ∀ j < i, ∀ r', f.records[j]? = some r' → ¬ r'.AnswersFor path

/-- One of the two lookups of a path comes back with the record. -/
def Returns (f : SchemaFile) (path : DescriptorPath) (r : LocationRecord) : Prop :=
  (f.find path).value = some r ∨ (f.resolve path).value = .ok (some r)

variable {f : SchemaFile} {path : DescriptorPath} {r : LocationRecord}

theorem isFirst_iff_exists_isFirstEntry :
    f.IsFirst path r ↔ ∃ i, f.IsFirstEntry path i r := by
  constructor
  · -- the index is the number of records in front
    rintro ⟨hpath, before, after, hrecords, hbefore⟩
    refine ⟨before.length, ?_, LocationRecord.answersFor_iff.mpr hpath, fun j hj r' hr' => ?_⟩
    · rw [hrecords, List.getElem?_append_right (Nat.le_refl _), Nat.sub_self]
      rfl
    · rw [hrecords, List.getElem?_append_left hj] at hr'
      have hne : r'.path ≠ path := hbefore r' (List.mem_of_getElem? hr')
      exact fun h => hne (LocationRecord.answersFor_iff.mp h)
  · rintro ⟨i, hentry, hanswers, hleast⟩
    obtain ⟨hi, hr⟩ := List.getElem?_eq_some_iff.mp hentry
    refine ⟨LocationRecord.answersFor_iff.mp hanswers, f.records.take i, f.records.drop (i + 1),
      ?_, fun r' hr' hpath => ?_⟩
    · rw [← hr, List.getElem_cons_drop hi, List.take_append_drop]
    · obtain ⟨j, hj, rfl⟩ := List.mem_take_iff_getElem.mp hr'
      have hjlt : j < f.records.length := by omega
      exact hleast j (by omega) _ (List.getElem?_eq_getElem hjlt)
        (LocationRecord.answersFor_iff.mpr hpath)

/-- A lookup leaves one line in the log if it finds nothing, and none otherwise. -/
theorem line_log_find (f : SchemaFile) (path : DescriptorPath) :
    (f.find path).log.map Event.line = if (f.find path).value = none then
      ["TRACE No location for path " ++ path.describe ++ " in " ++ f.fileName] else [] := by
  rcases f.isFirst_or_hasNoRecord path with ⟨r, hr⟩ | hnone
  · rw [find_of_isFirst hr, Logged.value_pure, if_neg (Option.some_ne_none r)]
    rfl
  · rw [find_of_hasNoRecord hnone, if_pos rfl, List.map_singleton, Event.line_noLocation]

/-- A path that fails its check is refused whatever the table holds, and nothing is noted down. -/
theorem resolve_of_check_eq_error {e : Error} (h : path.check = .error e) (f : SchemaFile) :
    f.resolve path = { value := .error e, log := [] } := by
  rw [resolve, h]
  rfl

/-- Neither lookup comes back with a record of another path. -/
theorem Returns.path_eq (h : f.Returns path r) : r.path = path := by
  have hfind : (f.find path).value = some r := by
    rcases h with h | h
    · exact h
    · -- the check lets the plain lookup through or stops it, but never changes its answer
      cases hcheck : path.check with
      | error e =>
        rw [resolve_of_check_eq_error hcheck] at h
        cases h
      | ok =>
        rw [resolve_of_check hcheck] at h
        exact Except.ok.inj h
  exact (value_find_eq_some_iff.mp hfind).1

/-- A lookup finds the entry with the smallest index whose path is the one that is looked up, or
says in the log that there is none; a check of the path comes first or not at all. So different
paths lead to different entries, and neither a shorter nor a longer path is mistaken for the one
that was asked for. -/
theorem find_first_entry_and_resolve (f : SchemaFile) (path : DescriptorPath) :
    (∀ r, (f.find path).value = some r ↔ ∃ i, f.IsFirstEntry path i r) ∧
    ((f.find path).value = none ↔ ∀ r ∈ f.records, ¬ r.AnswersFor path) ∧
    ((f.find path).log.map Event.line = if (f.find path).value = none then
      ["TRACE No location for path " ++ path.describe ++ " in " ++ f.fileName] else []) ∧
    (∀ e, path.check = .error e → f.resolve path = { value := .error e, log := [] }) ∧
    (path.check = .ok () →
      f.resolve path = { value := .ok (f.find path).value, log := (f.find path).log }) ∧
    (∀ other, other ≠ path →
      (∀ i j r r', f.IsFirstEntry path i r → f.IsFirstEntry other j r' → i ≠ j) ∧
      ∀ r, f.Returns path r → ¬ f.Returns other r) ∧
    (∀ r, r.path <+: path ∨ path <+: r.path → r.path ≠ path → ¬ f.Returns path r) := by
  refine ⟨fun r => value_find_eq_some_iff.trans isFirst_iff_exists_isFirstEntry, ?_,
    line_log_find f path, fun e h => resolve_of_check_eq_error h f, resolve_of_check,
    fun other hother => ⟨?_, fun r h h' => ?_⟩, fun r _ hne h => hne h.path_eq⟩
  · rw [value_find_eq_none_iff, HasNoRecord]
    simp only [LocationRecord.answersFor_iff, ne_eq]
  · -- one entry holds one record, and the record has one path
    rintro i j r r' h h' rfl
    have hrecord : r = r' := Option.some.inj (h.getElem?_eq.symm.trans h'.getElem?_eq)
    have hpath : r.path = path := LocationRecord.answersFor_iff.mp h.answersFor
    have hpath' : r'.path = other := LocationRecord.answersFor_iff.mp h'.answersFor
    exact hother (hpath'.symm.trans ((congrArg LocationRecord.path hrecord).symm.trans hpath))
  · exact hother (h'.path_eq.symm.trans h.path_eq)

/-- Of two records of one path the first counts, although a shorter path and a negative one stand
beside them; the path with the negative component is refused, although it has a record. -/
theorem find_first_entry_and_resolve_duplicate :
    let first : LocationRecord := { path := [8, 1], span := [2, 0, 40] }
    let f : SchemaFile :=
      { name := some "a.proto"
        sourceInfo := some ⟨[{ path := [8] }, { path := [8, -1] }, first,
          { path := [8, 1], span := [3, 0, 41] }]⟩ }
    (f.find [8, 1]).value = some first ∧
      f.resolve [8, 1] = { value := .ok (some first), log := [] } ∧
      f.resolve [8, -1] = { value := .error (.negativeComponent 1 (-1)), log := [] } ∧
      ¬ f.Returns [8] first ∧ ¬ f.Returns [8, 1, 0] first := by
  intro first f
  have hspec := find_first_entry_and_resolve f [8, 1]
  have hentry : f.IsFirstEntry [8, 1] 2 first := by
    refine ⟨rfl, LocationRecord.answersFor_iff.mpr rfl, fun j hj r' hr' h => ?_⟩
    have hpath : r'.path = [8, 1] := LocationRecord.answersFor_iff.mp h
    match j, hj with
    | 0, _ | 1, _ =>
      cases hr'
      exact absurd hpath (by decide)
  have hfind : (f.find [8, 1]).value = some first := (hspec.1 first).mpr ⟨2, hentry⟩
  have hresolve : f.resolve [8, 1] = _ := hspec.2.2.2.2.1 rfl
  have hshorter : ¬ f.Returns [8] first :=
    (hspec.2.2.2.2.2.1 [8] (by decide)).2 first (Or.inl hfind)
  exact ⟨hfind, hresolve, (find_first_entry_and_resolve f [8, -1]).2.2.2.1 _ rfl, hshorter,
    (find_first_entry_and_resolve f [8, 1, 0]).2.2.2.2.2.2 first (Or.inl ⟨[0], rfl⟩) (by decide)⟩

end SchemaFile

end SchemaSpans
