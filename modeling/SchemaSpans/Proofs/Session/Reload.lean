import SchemaSpans.Proofs.Schema.WellFormed
import SchemaSpans.Proofs.Session.Change

/-! Saving the set of a session and reading it back. In every session that can be reached, the
options of all files are maps and their messages nest no deeper than a set that was read
allows, so only options that were read on their own can be too deep for a set. -/

namespace SchemaSpans

theorem LocationRecord.depth_toJson_le (r : LocationRecord) :
    (RecordType.location.toJson r).depth ≤ 2 := by
  have hflat {v : ValueType} (hv : v = .string ∨ v = .int32) (x : v.Value) :
      (v.toJson x).depth ≤ 0 := by
    rcases hv with rfl | rfl <;> exact Nat.le_refl 0
  apply (RecordType.depth_toJson_le_iff_of_closed rfl).mpr
  intro f _
  cases f with
  | path | span => exact FieldType.depth_repeated_le_iff.mpr fun x _ => hflat (Or.inr rfl) x
  | leadingDetachedComments =>
    exact FieldType.depth_repeated_le_iff.mpr fun x _ => hflat (Or.inl rfl) x
  | leadingComments | trailingComments =>
    exact FieldType.depth_optional_le_iff.mpr fun x _ =>
      Nat.le_trans (hflat (Or.inl rfl) x) (Nat.zero_le 1)

theorem SourceInfo.depth_toJson_le (info : SourceInfo) :
    (RecordType.sourceInfo.toJson info).depth ≤ 4 := by
  apply (RecordType.depth_toJson_le_iff_of_closed rfl).mpr
  intro f _
  cases f
  exact FieldType.depth_repeated_le_iff.mpr fun r _ => r.depth_toJson_le

/-- Only messages and options can make a file deep. -/
theorem SchemaFile.depth_toJson_le_iff {f : SchemaFile} {n : Nat} (hn : 3 ≤ n) :
    (RecordType.file.toJson f).depth ≤ n + 2 ↔
      (∀ m ∈ f.messages, (RecordType.message.toJson m).depth ≤ n) ∧
        ∀ o ∈ f.options, (RecordType.options.toJson o).depth ≤ n + 1 := by
  rw [RecordType.depth_toJson_le_iff_of_closed rfl]
  constructor
  · intro hfields
    exact ⟨FieldType.depth_repeated_le_iff.mp (hfields FileField.messages (by decide)),
      FieldType.depth_optional_le_iff.mp (hfields FileField.options (by decide))⟩
  · rintro ⟨hmessages, hoptions⟩
    intro f _
    cases f with
    | name | package | syntaxVersion =>
      exact FieldType.depth_optional_le_iff.mpr fun x _ => Nat.zero_le _
    | dependencies => exact FieldType.depth_repeated_le_iff.mpr fun x _ => Nat.zero_le _
    | messages => exact FieldType.depth_repeated_le_iff.mpr hmessages
    | options => exact FieldType.depth_optional_le_iff.mpr hoptions
    | sourceInfo =>
      refine FieldType.depth_optional_le_iff.mpr fun info _ => ?_
      exact Nat.le_trans info.depth_toJson_le (Nat.succ_le_succ hn)

theorem FileSet.depth_toJson_le_iff {s : FileSet} {n : Nat} :
    (RecordType.fileSet.toJson s).depth ≤ n + 2 ↔
      ∀ f ∈ s.files, (RecordType.file.toJson f).depth ≤ n := by
  rw [RecordType.depth_toJson_le_iff_of_closed rfl]
  constructor
  · intro hfields
    exact FieldType.depth_repeated_le_iff.mp (hfields FileSetField.files (by decide))
  · intro hfiles f _
    cases f
    exact FieldType.depth_repeated_le_iff.mpr hfiles

namespace SchemaFile

/-- A file that can be saved in a set and read back, unless its options are too deep. -/
structure IsSavable (f : SchemaFile) : Prop where
  isMap : ∀ o ∈ f.options, o.IsMap
  -- the set, its list of files, the file and its list of messages take the other four brackets
  depth_message_le : ∀ m ∈ f.messages, (RecordType.message.toJson m).depth ≤ 123

theorem isSavable_of_read {text : String} {set : FileSet}
    (h : RecordType.fileSet.read text = .ok set) {f : SchemaFile} (hf : f ∈ set.files) :
    f.IsSavable := by
  obtain ⟨hmap, hdepth⟩ := RecordType.isWellFormed_of_read h
  have hset : (RecordType.fileSet.toJson set).depth ≤ 127 := hdepth (by decide)
  have hfile := FileSet.depth_toJson_le_iff.mp hset f hf
  refine ⟨fun o ho => hmap o ?_, ((depth_toJson_le_iff (by decide)).mp hfile).1⟩
  exact List.mem_flatMap.mpr ⟨f, hf, Option.mem_toList.mpr ho⟩

theorem isSavable_of_none {f : SchemaFile} (hoptions : f.options = none)
    (hmessages : f.messages = []) : f.IsSavable := by
  refine ⟨fun o ho => ?_, fun m hm => ?_⟩
  · rw [hoptions] at ho
    cases ho
  · rw [hmessages] at hm
    cases hm

theorem IsSavable.edit {f : SchemaFile} (h : f.IsSavable) {change : Edit}
    (hoptions : ∀ o, change = .options o → o.IsMap) : (f.edit change).IsSavable := by
  cases change with
  | package | syntaxVersion | dependency | sourceInfo => exact ⟨h.isMap, h.depth_message_le⟩
  | message name =>
    refine ⟨h.isMap, fun m hm => ?_⟩
    rcases List.mem_append.mp hm with hm | hm
    · exact h.depth_message_le m hm
    · obtain rfl := List.mem_singleton.mp hm
      exact Nat.le_add_left 1 122
  | options o =>
    refine ⟨?_, h.depth_message_le⟩
    rintro o' ⟨⟩
    exact hoptions o rfl

end SchemaFile

namespace Session

/-- A session all of whose files are savable. -/
structure IsSavable (s : Session) : Prop where
  set : ∀ f ∈ s.set.files, f.IsSavable
  current : s.current.IsSavable

theorem isSavable_empty : ({} : Session).IsSavable :=
  ⟨fun _ hf => (List.not_mem_nil hf).elim, SchemaFile.isSavable_of_none rfl rfl⟩

/-- Every step leaves a savable session savable, if it brings in no options that are no map. -/
theorem IsSavable.change {s s' : Session} (h : s.IsSavable) {step : Step}
    (hstep : ∀ o, step = .edit (.options o) → o.IsMap) (hchange : Change s step s') :
    s'.IsSavable := by
  -- what is read is well formed, and what is edited was savable before
  cases hchange with
  | unchanged => exact h
  | setRead _ hread => exact ⟨fun f hf => SchemaFile.isSavable_of_read hread hf, h.current⟩
  | pushed =>
    refine ⟨fun f hf => ?_, h.current⟩
    rcases List.mem_append.mp hf with hf | hf
    · exact h.set f hf
    · exact List.mem_singleton.mp hf ▸ h.current
  | loaded hread hf => exact ⟨h.set, SchemaFile.isSavable_of_read hread hf⟩
  | selected hf => exact ⟨h.set, h.set _ hf⟩
  | named | blank => exact ⟨h.set, SchemaFile.isSavable_of_none rfl rfl⟩
  | edited change =>
    exact ⟨h.set, h.current.edit fun o ho => hstep o (congrArg Step.edit ho)⟩
  | @optionsRead text options hread =>
    obtain ⟨hmap, -⟩ := RecordType.isWellFormed_of_read hread
    have hoptions : options.IsMap := hmap options (List.mem_singleton_self options)
    have hcurrent : (s.current.edit (.options options)).IsSavable := by
      refine h.current.edit ?_
      rintro o ⟨⟩
      exact hoptions
    exact ⟨h.set, hcurrent⟩
  | reversed | rotated => exact ⟨h.set, h.current.isMap, h.current.depth_message_le⟩

theorem IsSavable.run {s : Session} (h : s.IsSavable) (w : Workspace) (steps : List Step)
    (hsteps : ∀ o, Step.edit (.options o) ∈ steps → o.IsMap) : (s.run w steps).1.IsSavable := by
  induction steps generalizing s with
  | nil => exact h
  | cons step steps ih =>
    have hstep := h.change (fun o ho => hsteps o (ho ▸ List.mem_cons_self)) (change_step w s step)
    exact ih hstep fun o ho => hsteps o (List.mem_cons_of_mem step ho)

variable {w : Workspace} {s : Session}

theorem step_reload_of_read (h : RecordType.fileSet.read (RecordType.fileSet.write s.set) =
    .ok s.set) : s.step w .reload =
      (s, { value := .ok (.same true), log := [.loaded s.set.files.length "reload.json"] }) := by
  have hparse : FileSet.parse (RecordType.fileSet.write s.set) "reload.json" =
      { value := .ok s.set, log := [.loaded s.set.files.length "reload.json"] } := by
    rw [FileSet.parse, h]
    rfl
  rw [step, hparse, adopt]
  simp only [decide_true]

theorem step_reload_of_stopped {fault : Fault}
    (h : RecordType.fileSet.read (RecordType.fileSet.write s.set) = .error fault) :
    s.step w .reload =
      (s, { value := .error (.error (.setMalformed "reload.json" fault.message)), log := [] }) := by
  have hparse : FileSet.parse (RecordType.fileSet.write s.set) "reload.json" =
      { value := .error (.setMalformed "reload.json" fault.message), log := [] } := by
    rw [FileSet.parse, h]
    rfl
  rw [step, hparse]
  rfl

/-- Only the options of a savable session can be too deep for its set. -/
theorem IsSavable.nesting_set_le_iff (h : s.IsSavable) :
    Text.nesting (RecordType.fileSet.write s.set) ≤ 127 ↔
      ∀ f ∈ s.set.files, ∀ o ∈ f.options, Text.nesting (RecordType.options.write o) ≤ 124 := by
  simp only [RecordType.write, Json.nesting_render]
  rw [FileSet.depth_toJson_le_iff]
  refine forall₂_congr fun f hf => ?_
  rw [SchemaFile.depth_toJson_le_iff (by decide)]
  exact and_iff_right (h.set f hf).depth_message_le

/-- Saving and reloading brings back the set of every session that can be reached, unless the
options of one of its files nest too deeply for a file inside a set. Options that are read are
maps; only options that an edit hands over as they are have to be assumed to be. -/
theorem reload_run (w : Workspace) (steps : List Step)
    (hmap : ∀ o, Step.edit (.options o) ∈ steps → o.IsMap)
    (hwhole : ∀ f ∈ (run w {} steps).1.set.files, ∀ o ∈ f.options, o.IsWhole) :
    let s := (run w {} steps).1
    ((∀ f ∈ s.set.files, ∀ o ∈ f.options, Text.nesting (RecordType.options.write o) ≤ 124) →
      s.step w .reload =
        (s, { value := .ok (.same true), log := [.loaded s.set.files.length "reload.json"] })) ∧
    ((∃ f ∈ s.set.files, ∃ o ∈ f.options, 124 < Text.nesting (RecordType.options.write o)) →
      ∃ fault : Fault,
        fault.message = s!"recursion limit exceeded at {fault.position.describe}" ∧
        s.step w .reload =
          (s, { value := .error (.error (.setMalformed "reload.json" fault.message))
                log := [] })) := by
  intro s
  have hs : s.IsSavable := isSavable_empty.run w steps hmap
  have hoptions : ∀ o ∈ RecordType.fileSet.optionsIn s.set, o.IsMap ∧ o.IsWhole := by
    intro o ho
    obtain ⟨f, hf, ho⟩ := List.mem_flatMap.mp ho
    have ho := Option.mem_toList.mp ho
    exact ⟨(hs.set f hf).isMap o ho, hwhole f hf o ho⟩
  constructor
  · intro hdepth
    exact step_reload_of_read (RecordType.read_write_of_le hoptions (hs.nesting_set_le_iff.mpr hdepth))
  · rintro ⟨f, hf, o, ho, hdepth⟩
    have hdeep : ¬ Text.nesting (RecordType.fileSet.write s.set) ≤ 127 := fun hle =>
      Nat.not_le_of_lt hdepth (hs.nesting_set_le_iff.mp hle f hf o ho)
    obtain ⟨position, hread⟩ := RecordType.read_write_of_lt hoptions (Nat.lt_of_not_le hdeep)
    exact ⟨⟨.nestedTooDeep, position⟩, rfl, step_reload_of_stopped hread⟩

theorem run_ofNestedLists (w : Workspace) {n : Nat} (hn : n ≤ 126) :
    (run w {} [.readOptions (RecordType.options.write (.ofNestedLists n)), .push]).1 =
      { set := .ofNestedLists n, current := { options := some (.ofNestedLists n) } } := by
  have hread : RecordType.options.read (RecordType.options.write (.ofNestedLists n)) =
      .ok (.ofNestedLists n) := by
    refine RecordType.read_write_of_le
      (fun o ho => List.mem_singleton.mp ho ▸ RecordType.isMap_ofNestedLists n) ?_
    rw [RecordType.nesting_options_ofNestedLists]
    exact Nat.succ_le_succ hn
  simp only [run, step, hread]
  rfl

/-- One list more than a set has room for can be read as options, but not as a set. -/
theorem reload_run_ofNestedLists :
    let steps (n : Nat) : List Step :=
      [.readOptions (RecordType.options.write (.ofNestedLists n)), .push]
    let s (n : Nat) := (run {} {} (steps n)).1
    (s 123).step {} .reload =
        (s 123, { value := .ok (.same true), log := [.loaded 1 "reload.json"] }) ∧
      ∃ fault : Fault,
        fault.message = s!"recursion limit exceeded at {fault.position.describe}" ∧
        (s 124).step {} .reload =
          (s 124, { value := .error (.error (.setMalformed "reload.json" fault.message))
                    log := [] }) := by
  intro steps s
  have hmap (n : Nat) : ∀ o, Step.edit (.options o) ∈ steps n → o.IsMap := by
    intro o ho
    rcases List.mem_cons.mp ho with ho | ho
    · cases ho
    · cases List.mem_singleton.mp ho
  have hoptions {n : Nat} (hn : n ≤ 126) :
      ∀ f ∈ (run {} {} (steps n)).1.set.files, ∀ o ∈ f.options, o = .ofNestedLists n := by
    rw [run_ofNestedLists {} hn]
    intro f hf o ho
    obtain rfl := List.mem_singleton.mp hf
    exact (Option.some.inj ho).symm
  have hwhole {n : Nat} (hn : n ≤ 126) :
      ∀ f ∈ (run {} {} (steps n)).1.set.files, ∀ o ∈ f.options, o.IsWhole :=
    fun f hf o ho => hoptions hn f hf o ho ▸ (RecordType.isMap_ofNestedLists n).2
  have hlength {n : Nat} (hn : n ≤ 126) : (run {} {} (steps n)).1.set.files.length = 1 := by
    rw [run_ofNestedLists {} hn]
    rfl
  constructor
  · have hreload := (reload_run {} (steps 123) (hmap 123) (hwhole (by decide))).1
    rw [hlength (by decide)] at hreload
    refine hreload fun f hf o ho => ?_
    rw [hoptions (by decide) f hf o ho]
    exact Nat.le_of_eq (RecordType.nesting_options_ofNestedLists 123)
  · have hreload := (reload_run {} (steps 124) (hmap 124) (hwhole (by decide))).2
    refine hreload ⟨{ options := some (.ofNestedLists 124) }, ?_, _, rfl, ?_⟩
    · rw [run_ofNestedLists {} (by decide)]
      exact List.mem_singleton_self _
    · exact Nat.le_of_eq (RecordType.nesting_options_ofNestedLists 124).symm

end Session

end SchemaSpans
