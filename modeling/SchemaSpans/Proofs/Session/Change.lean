import SchemaSpans.Session.Step

/-! What a step can do to a session. Every way in which the set or the file being worked on
can change is listed once, with where the new one comes from; what holds of all sessions that
can be reached follows by going through this list. -/

namespace SchemaSpans.Session

/-- How a step changes a session: not at all, or by one of these moves. -/
inductive Change (s : Session) : Step → Session → Prop where
  | unchanged (step : Step) : Change s step s
  /-- The set is one that was read from a text. -/
  | setRead (step : Step) {text : String} {set : FileSet}
      (h : RecordType.fileSet.read text = .ok set) : Change s step { s with set }
  | pushed : Change s .push { s with set := s.set.push s.current }
  | loaded {path name text : String} {set : FileSet} {f : SchemaFile}
      (h : RecordType.fileSet.read text = .ok set) (hf : f ∈ set.files) :
      Change s (.loadFile path name) { s with current := f }
  | selected {name : String} {f : SchemaFile} (hf : f ∈ s.set.files) :
      Change s (.select name) { s with current := f }
  | named (name : String) : Change s (.new name) { s with current := .new name }
  | blank : Change s .blank { s with current := {} }
  | edited (change : Edit) : Change s (.edit change) { s with current := s.current.edit change }
  | optionsRead {text : String} {options : FileOptions}
      (h : RecordType.options.read text = .ok options) :
      Change s (.readOptions text) { s with current := s.current.edit (.options options) }
  | reversed : Change s .reverse { s with current := s.current.reverseRecords }
  | rotated (count : Nat) :
      Change s (.rotate count) { s with current := s.current.rotateRecords count }

end Session

theorem FileSet.read_of_parse {text source : String} {set : FileSet}
    (h : (FileSet.parse text source).value = .ok set) : RecordType.fileSet.read text = .ok set := by
  rw [parse] at h
  split at h
  · cases h
  · rename_i hread
    cases h
    exact hread

theorem Workspace.read_of_loadSet {w : Workspace} {path : String} {set : FileSet}
    (h : (w.loadSet path).value = .ok set) : ∃ text, RecordType.fileSet.read text = .ok set := by
  rw [loadSet] at h
  split at h
  · cases h
  · exact ⟨_, FileSet.read_of_parse h⟩

theorem FileSet.mem_of_fileNamed? {set : FileSet} {name : String} {f : SchemaFile}
    (h : set.fileNamed? name = some f) : f ∈ set.files :=
  List.mem_of_find?_eq_some h

theorem Workspace.read_of_loadFile {w : Workspace} {path name : String} {f : SchemaFile}
    (h : (w.loadFile path name).value = .ok f) :
    ∃ text set, RecordType.fileSet.read text = .ok set ∧ f ∈ set.files := by
  rw [loadFile, Logged.value_bind] at h
  cases hset : (w.loadSet path).value with
  | error e =>
    rw [hset] at h
    cases h
  | ok set =>
    rw [hset] at h
    obtain ⟨text, hread⟩ := read_of_loadSet hset
    dsimp only at h
    split at h
    · rename_i hfile
      cases h
      exact ⟨text, set, hread, FileSet.mem_of_fileNamed? hfile⟩
    · cases h

namespace Session

theorem change_adopt {s : Session} (step : Step) {loaded : Logged (Except Error FileSet)}
    (a : FileSet → Answer)
    (h : ∀ set, loaded.value = .ok set → ∃ text, RecordType.fileSet.read text = .ok set) :
    Change s step (s.adopt loaded a).1 := by
  rw [adopt]
  split
  · rename_i set hset
    obtain ⟨text, hread⟩ := h set hset
    exact .setRead step hread
  · exact .unchanged step

/-- Every step changes a session in one of the listed ways. -/
theorem change_step (w : Workspace) (s : Session) (step : Step) :
    Change s step (s.step w step).1 := by
  -- failures and answers leave the session alone, so only what succeeds and moves it is left
  cases step with
  | parse text source => exact change_adopt _ _ fun set h => ⟨text, FileSet.read_of_parse h⟩
  | loadSet path => exact change_adopt _ _ fun set h => Workspace.read_of_loadSet h
  | loadFile path name =>
    rw [Session.step]
    split
    · rename_i f hf
      obtain ⟨text, set, hread, hmem⟩ := Workspace.read_of_loadFile hf
      exact .loaded hread hmem
    · exact .unchanged _
  | select name =>
    rw [Session.step]
    split
    · rename_i f hf
      exact .selected (FileSet.mem_of_fileNamed? hf)
    · exact .unchanged _
  | push => exact .pushed
  | reload => exact change_adopt _ _ fun set h => ⟨_, FileSet.read_of_parse h⟩
  | new name => exact .named name
  | blank => exact .blank
  | edit change => exact .edited change
  | readOptions text =>
    rw [Session.step]
    split
    · rename_i options hread
      exact .optionsRead hread
    · exact .unchanged _
  | reverse => exact .reversed
  | rotate count => exact .rotated count
  | resolve path =>
    rw [Session.step]
    split <;> exact .unchanged _
  | recordOf name | spanOf name =>
    rw [Session.step, aboutStatement]
    split <;> exact .unchanged _
  | describeSet | writeSet | describeFile | writeFile | otherOptions | records | find path
  | statementSpans | importSpan index | access accessor => exact .unchanged _

end Session

end SchemaSpans
