import SchemaSpans.Proofs.Location.Accessors

/-! Which records a lookup depends on. Only the records of the requested path count, and only
their order among themselves: what else a file holds and where its other records stand makes
no difference, apart from the name of the file in the log. -/

namespace SchemaSpans.SchemaFile

/-- The records of a path, in the order of the table. -/
def recordsAt (f : SchemaFile) (path : DescriptorPath) : List LocationRecord :=
  f.records.filter fun r => r.path = path

/-- Every lookup of a path has the same result in two files. -/
structure AnswersAlike (f g : SchemaFile) (path : DescriptorPath) : Prop where
  find : (f.find path).value = (g.find path).value
  resolve : (f.resolve path).value = (g.resolve path).value
  record : ∀ s : Statement, s.path = path →
    (f.statementRecord s).value = (g.statementRecord s).value
  span : ∀ p : FixedPlace, p.path = path → (p.span f).value = (p.span g).value

/-- Every lookup of a path is the same in two files, with what it notes down. -/
structure LooksUpAlike (f g : SchemaFile) (path : DescriptorPath) : Prop where
  find : f.find path = g.find path
  resolve : f.resolve path = g.resolve path
  record : ∀ s : Statement, s.path = path → f.statementRecord s = g.statementRecord s
  span : ∀ p : FixedPlace, p.path = path → p.span f = p.span g

variable {f g : SchemaFile} {path : DescriptorPath}

/-- What a lookup finds is the first one of the records of its path. -/
theorem value_find (f : SchemaFile) (path : DescriptorPath) :
    (f.find path).value = (f.recordsAt path).head? := by
  rw [recordsAt, List.head?_filter, value_find_eq_find?]

theorem find_eq_of_recordsAt_eq (h : f.recordsAt path = g.recordsAt path)
    (hname : f.fileName = g.fileName) : f.find path = g.find path := by
  have hfound : (f.records.find? fun r => r.path = path) =
      g.records.find? fun r => r.path = path := by
    rw [← List.head?_filter, ← List.head?_filter]
    exact congrArg List.head? h
  rw [find, find, hfound, hname]

theorem value_resolve_eq (h : (f.find path).value = (g.find path).value) :
    (f.resolve path).value = (g.resolve path).value := by
  rw [resolve, resolve]
  cases path.check with
  | error e => rfl
  | ok =>
    change Except.ok (f.find path).value = Except.ok (g.find path).value
    rw [h]

theorem value_spanAt_eq (h : (f.find path).value = (g.find path).value) :
    (f.spanAt path).value = (g.spanAt path).value := by
  rw [spanAt, spanAt, Logged.value_bind, Logged.value_bind, h]
  -- the log is the only place where the two files may still differ
  cases (g.find path).value with
  | none => rfl
  | some r =>
    dsimp only
    cases r.span? with
    | ok span => rfl
    | error e => rfl

theorem spanAt_eq (h : f.find path = g.find path) (hname : f.fileName = g.fileName) :
    f.spanAt path = g.spanAt path := by
  rw [spanAt, spanAt, h, hname]

theorem answersAlike_of_recordsAt_eq (h : f.recordsAt path = g.recordsAt path) :
    f.AnswersAlike g path := by
  have hfind : (f.find path).value = (g.find path).value := by
    rw [value_find, value_find, h]
  refine ⟨hfind, value_resolve_eq hfind, ?_, ?_⟩
  · rintro s rfl
    exact hfind
  · rintro p rfl
    rw [FixedPlace.span_eq_spanAt, FixedPlace.span_eq_spanAt]
    exact value_spanAt_eq hfind

theorem looksUpAlike_of_recordsAt_eq (h : f.recordsAt path = g.recordsAt path)
    (hname : f.fileName = g.fileName) : f.LooksUpAlike g path := by
  have hfind : f.find path = g.find path := find_eq_of_recordsAt_eq h hname
  refine ⟨hfind, ?_, ?_, ?_⟩
  · rw [resolve, resolve, hfind]
  · rintro s rfl
    exact hfind
  · rintro p rfl
    rw [FixedPlace.span_eq_spanAt, FixedPlace.span_eq_spanAt]
    exact spanAt_eq hfind hname

/-- The table of a rearranged file; there is nothing to rearrange where there is no table. -/
theorem records_rearrange (f : SchemaFile) {order : List LocationRecord → List LocationRecord}
    (horder : order [] = []) : (f.rearrange order).records = order f.records := by
  rw [records, records, rearrange]
  cases f.sourceInfo with
  | none => exact horder.symm
  | some info => rfl

/-- A path with one record at most leaves no room for another order. -/
theorem recordsAt_rearrange_of_length_le_one {order : List LocationRecord → List LocationRecord}
    (horder : ∀ rs, (order rs).Perm rs) (h : (f.recordsAt path).length ≤ 1) :
    (f.rearrange order).recordsAt path = f.recordsAt path := by
  -- the records of the path are rearranged as well, but there is one arrangement only
  have hperm : ((f.rearrange order).recordsAt path).Perm (f.recordsAt path) := by
    rw [recordsAt, recordsAt, records_rearrange f (List.perm_nil.mp (horder []))]
    exact (horder f.records).filter _
  match hrecords : f.recordsAt path with
  | [] =>
    rw [hrecords] at hperm
    exact List.perm_nil.mp hperm
  | [r] =>
    rw [hrecords] at hperm
    exact List.perm_singleton.mp hperm
  | _ :: _ :: _ =>
    rw [hrecords] at h
    exact absurd h (by simp)

theorem perm_rotateLeft {α : Type} (xs : List α) (n : Nat) : (xs.rotateLeft n).Perm xs := by
  rw [List.rotateLeft]
  split
  · exact List.Perm.refl xs
  · refine List.perm_append_comm.trans ?_
    rw [List.take_append_drop]

/-- Lookups depend on nothing but the records of their path, in the order of the table. So
they survive every new order of a table that keeps these records in their order among
themselves, and with one such record at most every reversal and rotation. -/
theorem answersAlike_and_looksUpAlike_rearrange (path : DescriptorPath) :
    (∀ f g : SchemaFile, f.recordsAt path = g.recordsAt path → f.AnswersAlike g path) ∧
    (∀ (f : SchemaFile) (order : List LocationRecord → List LocationRecord),
      (f.rearrange order).recordsAt path = f.recordsAt path →
        (f.rearrange order).LooksUpAlike f path) ∧
    (∀ f : SchemaFile, (f.recordsAt path).length ≤ 1 →
      f.reverseRecords.LooksUpAlike f path ∧ ∀ n, (f.rotateRecords n).LooksUpAlike f path) := by
  have hrearrange (f : SchemaFile) (order : List LocationRecord → List LocationRecord)
      (h : (f.rearrange order).recordsAt path = f.recordsAt path) :
      (f.rearrange order).LooksUpAlike f path := looksUpAlike_of_recordsAt_eq h rfl
  refine ⟨fun f g h => answersAlike_of_recordsAt_eq h, hrearrange, fun f h => ⟨?_, fun n => ?_⟩⟩
  · exact hrearrange f _ (recordsAt_rearrange_of_length_le_one List.reverse_perm h)
  · exact hrearrange f _ (recordsAt_rearrange_of_length_le_one (fun rs => perm_rotateLeft rs n) h)

/-- Two files that share the records of one path and nothing else, and a table turned around in
which a longer and a shorter path stand beside the one that is looked up. -/
theorem answersAlike_and_looksUpAlike_rearrange_option :
    let r : LocationRecord := { path := [8, 1], span := [2, 0, 40] }
    let f : SchemaFile :=
      { name := some "a.proto"
        sourceInfo := some ⟨[{ path := [8] }, r, { path := [8, 1, 0], span := [1] }]⟩ }
    let g : SchemaFile := { package := some "acme", sourceInfo := some ⟨[r, { path := [12] }]⟩ }
    (f.find [8, 1]).value = (g.find [8, 1]).value ∧
      (f.statementSpan .javaPackage).value = (g.statementSpan .javaPackage).value ∧
      f.reverseRecords.find [8, 1] = f.find [8, 1] := by
  intro r f g
  have hspec := answersAlike_and_looksUpAlike_rearrange [8, 1]
  have halike := hspec.1 f g (by decide)
  exact ⟨halike.find, halike.span (.statement .javaPackage) rfl,
    (hspec.2.2 f (by decide)).1.find⟩

end SchemaSpans.SchemaFile
