import Mathlib.Data.List.Basic
import Mathlib.Data.List.Induction
import SchemaSpans.Proofs.Session.Footprint

/-! A file made by a chain of edits. Two rules say what becomes of its parts: a part that holds
one value has the value that was set last, and a part that holds a list has all that was appended
to it, in order. As every edit is about one part, only the order of the edits of one part among
themselves makes a difference. -/

namespace SchemaSpans

namespace Edit

def package? : Edit → Option String
  | package value => some value
  | _ => none

def syntaxVersion? : Edit → Option String
  | syntaxVersion value => some value
  | _ => none

def dependency? : Edit → Option String
  | dependency value => some value
  | _ => none

/-- The message that an edit appends: it has a name, and neither fields nor messages inside. -/
def message? : Edit → Option MessageDef
  | message name => some { name := some name, fields := [], nested := [] }
  | _ => none

def options? : Edit → Option FileOptions
  | options value => some value
  | _ => none

/-- The table that an edit attaches; it may be empty. -/
def sourceInfo? : Edit → Option SourceInfo
  | sourceInfo records => some { records }
  | _ => none

/-- The edits of a chain that are about one field. -/
def about (edits : List Edit) (field : FileField) : List Edit :=
  edits.filter fun e => e.field = field

theorem about_concat (edits : List Edit) (e : Edit) (field : FileField) :
    about (edits ++ [e]) field = about edits field ++ if e.field = field then [e] else [] := by
  rw [about, List.filter_append, List.filter_singleton, Bool.cond_decide, about]

theorem about_pair_of_ne {e e' : Edit} (h : e.field ≠ e'.field) (field : FileField) :
    about [e, e'] field = about [e', e] field := by
  by_cases he : e.field = field
  · have he' : ¬ e'.field = field := fun h' => h (he.trans h'.symm)
    simp only [about, List.filter_cons, he, he', decide_true, decide_false, if_true,
      Bool.false_eq_true, if_false]
  · simp only [about, List.filter_cons, he, decide_false, Bool.false_eq_true, if_false]

theorem mem_filterMap_sourceInfo?_iff {edits : List Edit} {info : SourceInfo} :
    info ∈ edits.filterMap sourceInfo? ↔ sourceInfo info.records ∈ edits := by
  rw [List.mem_filterMap]
  constructor
  · rintro ⟨e, he, hinfo⟩
    cases e with
    | sourceInfo =>
      cases hinfo
      exact he
    | package | syntaxVersion | dependency | message | options => cases hinfo
  · exact fun h => ⟨_, h, rfl⟩

end Edit

namespace SchemaFile

/-- The file after a chain of edits. -/
def editAll (f : SchemaFile) (edits : List Edit) : SchemaFile :=
  edits.foldl edit f

theorem editAll_concat (f : SchemaFile) (edits : List Edit) (e : Edit) :
    f.editAll (edits ++ [e]) = (f.editAll edits).edit e :=
  List.foldl_concat ..

section Parts

variable {β : Type} (argument : Edit → Option β)

/-- A part that an edit sets or leaves alone is what the last edit has set it to. -/
theorem editAll_eq_getLast? (part : SchemaFile → Option β)
    (h : ∀ f e, part (f.edit e) = (argument e).or (part f)) (f : SchemaFile) (edits : List Edit) :
    part (f.editAll edits) = (edits.filterMap argument).getLast?.or (part f) := by
  -- from the end of the chain: what the last edit does not set is as it was before it
  induction edits using List.reverseRecOn with
  | nil => rfl
  | append_singleton edits e ih =>
    rw [editAll_concat, h, ih, List.filterMap_append]
    cases he : argument e with
    | none => rw [List.filterMap_cons_none he, List.filterMap_nil, List.append_nil, Option.none_or]
    | some b =>
      rw [List.filterMap_cons_some he, List.filterMap_nil, List.getLast?_concat, Option.some_or,
        Option.some_or]

/-- A part to which edits only append holds all that they have appended, in their order. -/
theorem editAll_eq_append (part : SchemaFile → List β)
    (h : ∀ f e, part (f.edit e) = part f ++ (argument e).toList) (f : SchemaFile)
    (edits : List Edit) : part (f.editAll edits) = part f ++ edits.filterMap argument := by
  induction edits using List.reverseRecOn with
  | nil => exact (List.append_nil _).symm
  | append_singleton edits e ih =>
    rw [editAll_concat, h, ih, List.filterMap_append, List.append_assoc]
    cases he : argument e with
    | none => rw [List.filterMap_cons_none he, List.filterMap_nil, Option.toList_none]
    | some b => rw [List.filterMap_cons_some he, List.filterMap_nil, Option.toList_some]

end Parts

theorem package_edit (f : SchemaFile) (e : Edit) :
    (f.edit e).package = e.package?.or f.package := by
  cases e <;> rfl

theorem syntaxVersion_edit (f : SchemaFile) (e : Edit) :
    (f.edit e).syntaxVersion = e.syntaxVersion?.or f.syntaxVersion := by
  cases e <;> rfl

theorem options_edit (f : SchemaFile) (e : Edit) :
    (f.edit e).options = e.options?.or f.options := by
  cases e <;> rfl

theorem sourceInfo_edit (f : SchemaFile) (e : Edit) :
    (f.edit e).sourceInfo = e.sourceInfo?.or f.sourceInfo := by
  cases e <;> rfl

theorem dependencies_edit (f : SchemaFile) (e : Edit) :
    (f.edit e).dependencies = f.dependencies ++ e.dependency?.toList := by
  cases e with
  | dependency => rfl
  | package | syntaxVersion | message | options | sourceInfo => exact (List.append_nil _).symm

theorem messages_edit (f : SchemaFile) (e : Edit) :
    (f.edit e).messages = f.messages ++ e.message?.toList := by
  cases e with
  | message => rfl
  | package | syntaxVersion | dependency | options | sourceInfo => exact (List.append_nil _).symm

theorem name_editAll (f : SchemaFile) (edits : List Edit) : (f.editAll edits).name = f.name := by
  induction edits using List.reverseRecOn with
  | nil => rfl
  | append_singleton edits e ih =>
    rw [editAll_concat, ← ih]
    cases e <;> rfl

attribute [ext] SchemaFile

/-- A file made by edits, part by part. -/
theorem editAll_new (name : String) (edits : List Edit) : (new name).editAll edits =
    { name := some name
      package := (edits.filterMap Edit.package?).getLast?
      dependencies := edits.filterMap Edit.dependency?
      messages := edits.filterMap Edit.message?
      options := (edits.filterMap Edit.options?).getLast?
      sourceInfo := (edits.filterMap Edit.sourceInfo?).getLast?
      syntaxVersion := (edits.filterMap Edit.syntaxVersion?).getLast? } := by
  -- the parts of a new file are empty, so nothing stands behind the last value or before a list
  apply SchemaFile.ext
  · exact name_editAll (new name) edits
  · exact (editAll_eq_getLast? _ _ package_edit (new name) edits).trans Option.or_none
  · exact editAll_eq_append _ _ dependencies_edit (new name) edits
  · exact editAll_eq_append _ _ messages_edit (new name) edits
  · exact (editAll_eq_getLast? _ _ options_edit (new name) edits).trans Option.or_none
  · exact (editAll_eq_getLast? _ _ sourceInfo_edit (new name) edits).trans Option.or_none
  · exact (editAll_eq_getLast? _ _ syntaxVersion_edit (new name) edits).trans Option.or_none

/-- What an edit makes of its field depends on nothing but this field. -/
theorem holds_edit_field_congr {f f' : SchemaFile} {e : Edit}
    (h : RecordType.file.holds f e.field = RecordType.file.holds f' e.field) :
    RecordType.file.holds (f.edit e) e.field = RecordType.file.holds (f'.edit e) e.field := by
  cases e with
  | dependency value => exact congrArg (· ++ [value]) h
  | message name => exact congrArg (· ++ [{ name := some name }]) h
  | package | syntaxVersion | options | sourceInfo => rfl

/-- A field is what the edits about it have made of it; all others can be left out. -/
theorem holds_editAll_about (f : SchemaFile) (edits : List Edit) (field : FileField) :
    RecordType.file.holds (f.editAll (Edit.about edits field)) field =
      RecordType.file.holds (f.editAll edits) field := by
  induction edits using List.reverseRecOn with
  | nil => rfl
  | append_singleton edits e ih =>
    rw [Edit.about_concat, editAll_concat]
    by_cases he : e.field = field
    · -- the last edit is kept, and finds in its field the same on both sides
      subst he
      rw [if_pos rfl, editAll_concat]
      exact holds_edit_field_congr ih
    · rw [if_neg he, List.append_nil, ih, holds_edit_of_ne _ (Ne.symm he)]

/-- Two chains with the same edits of every field, in the same order, make the same file. -/
theorem editAll_eq_of_about_eq (f : SchemaFile) {edits edits' : List Edit}
    (h : ∀ field, Edit.about edits field = Edit.about edits' field) :
    f.editAll edits = f.editAll edits' := by
  -- each side is compared with the file that the edits of the field alone make
  have hholds (field : FileField) : RecordType.file.holds (f.editAll edits) field =
      RecordType.file.holds (f.editAll edits') field := by
    rw [← holds_editAll_about, h, holds_editAll_about]
  exact SchemaFile.ext (hholds .name) (hholds .package) (hholds .dependencies) (hholds .messages)
    (hholds .options) (hholds .sourceInfo) (hholds .syntaxVersion)

/-- Edits of different fields may change places. -/
theorem edit_comm (f : SchemaFile) {e e' : Edit} (h : e.field ≠ e'.field) :
    (f.edit e).edit e' = (f.edit e').edit e :=
  f.editAll_eq_of_about_eq (Edit.about_pair_of_ne h)

/-- No way to ask where a part of the file was written has an answer. -/
structure KnowsNoPlace (f : SchemaFile) : Prop where
  find : ∀ path, (f.find path).value = none
  record : ∀ s, (f.statementRecord s).value = none
  span : ∀ p : FixedPlace, (p.span f).value = .zero
  importSpan : ∀ index, (f.importSpan index).value = .zero
  spans : ∀ s span, (s, span) ∈ f.statementSpans.value → span = .zero

theorem knowsNoPlace_of_sourceInfo_eq_none {f : SchemaFile} (h : f.sourceInfo = none) :
    f.KnowsNoPlace := by
  have hrecords : f.records = [] := by
    rw [records, h]
    rfl
  have hnone (path : DescriptorPath) : f.HasNoRecord path := by
    rw [HasNoRecord, hrecords]
    exact fun r hr => (List.not_mem_nil hr).elim
  have hfind (path : DescriptorPath) : (f.find path).value = none := by
    rw [find_of_hasNoRecord (hnone path)]
  have hspanAt (path : DescriptorPath) : (f.spanAt path).value = .zero := by
    rw [spanAt_of_hasNoRecord (hnone path)]
  refine ⟨hfind, fun s => hfind s.path, fun p => ?_, fun index => ?_, fun s span hs => ?_⟩
  · rw [FixedPlace.span_eq_spanAt]
    exact hspanAt p.path
  · -- an index beyond 32 bits is not even looked up
    rw [importSpan]
    split
    · exact hspanAt _
    · rfl
  · rw [FixedPlace.value_statementSpans, List.mem_map] at hs
    obtain ⟨s', -, heq⟩ := hs
    cases heq
    exact hspanAt s.path

theorem sourceInfo_editAll_new_eq_none_iff {name : String} {edits : List Edit} :
    ((new name).editAll edits).sourceInfo = none ↔ ∀ records, .sourceInfo records ∉ edits := by
  rw [editAll_new, List.getLast?_eq_none_iff, List.eq_nil_iff_forall_not_mem]
  simp only [Edit.mem_filterMap_sourceInfo?_iff]
  exact ⟨fun h records => h ⟨records⟩, fun h info => h info.records⟩

/-- What a chain of edits makes of a new file. A part with one value has the last value that was
set, a list has all that was appended; edits of different fields may change places, and only the
order among the edits of one field counts. There is a table if one was attached, be it an empty
one, and without it nothing is known of any place. -/
theorem editAll_new_spec (name : String) (edits : List Edit) :
    (new name).editAll edits =
      { name := some name
        package := (edits.filterMap Edit.package?).getLast?
        dependencies := edits.filterMap Edit.dependency?
        messages := edits.filterMap Edit.message?
        options := (edits.filterMap Edit.options?).getLast?
        sourceInfo := (edits.filterMap Edit.sourceInfo?).getLast?
        syntaxVersion := (edits.filterMap Edit.syntaxVersion?).getLast? } ∧
    (∀ (f : SchemaFile) (e e' : Edit), e.field ≠ e'.field →
      (f.edit e).edit e' = (f.edit e').edit e) ∧
    (∀ edits', (∀ field, Edit.about edits' field = Edit.about edits field) →
      (new name).editAll edits' = (new name).editAll edits) ∧
    (((new name).editAll edits).hasSourceInfo = true ↔ ∃ records, .sourceInfo records ∈ edits) ∧
    ((∀ records, .sourceInfo records ∉ edits) → ((new name).editAll edits).KnowsNoPlace) := by
  refine ⟨editAll_new name edits, fun f e e' h => edit_comm f h,
    fun edits' h => editAll_eq_of_about_eq _ h, ?_, fun h => ?_⟩
  · rw [hasSourceInfo, Option.isSome_iff_ne_none, ne_eq, sourceInfo_editAll_new_eq_none_iff]
    simp only [not_forall, not_not]
  · exact knowsNoPlace_of_sourceInfo_eq_none (sourceInfo_editAll_new_eq_none_iff.mpr h)

/-- Two packages of which the second counts, two imports of one name that both stay, and no
table; an empty table is a table. -/
theorem editAll_new_spec_twice :
    let edits : List Edit :=
      [.package "a", .dependency "x.proto", .message "M", .package "b", .dependency "x.proto"]
    let f := (new "a.proto").editAll edits
    f = { name := some "a.proto", package := some "b", dependencies := ["x.proto", "x.proto"]
          messages := [{ name := some "M" }] } ∧
      f = (new "a.proto").editAll
        [.message "M", .dependency "x.proto", .dependency "x.proto", .package "a", .package "b"] ∧
      (f.edit (.options {})).edit (.message "N") = (f.edit (.message "N")).edit (.options {}) ∧
      (f.find [2]).value = none ∧
      ((new "a.proto").editAll [.sourceInfo []]).hasSourceInfo = true := by
  intro edits f
  have hspec := editAll_new_spec "a.proto" edits
  have hnone : ∀ records, Edit.sourceInfo records ∉ edits := by
    intro records h
    simp only [edits, List.mem_cons, List.not_mem_nil, reduceCtorEq, or_self] at h
  have htable := (editAll_new_spec "a.proto" [.sourceInfo []]).2.2.2.1
  refine ⟨hspec.1, (hspec.2.2.1 _ fun field => ?_).symm,
    hspec.2.1 f (.options {}) (.message "N") (by decide), (hspec.2.2.2.2 hnone).find [2],
    htable.mpr ⟨[], List.mem_singleton_self _⟩⟩
  cases field <;> rfl

end SchemaFile

end SchemaSpans
