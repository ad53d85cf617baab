import SchemaSpans.Proofs.Json.Ordered
import SchemaSpans.Schema.Draft
import SchemaSpans.Schema.Written

/-! One view of all types of record through their tables of fields: what a record holds in
a field, the member that is written for it, and the record that a draft with these values
becomes. Every statement about the seven types that follows is made once, over the table. -/

namespace SchemaSpans

/-- A value as a JSON value. -/
def ValueType.toJson : (v : ValueType) → v.Value → Json
  | .string, s => .string s
  | .int32, i => .ofInt32 i
  | .record t, r => t.toJson r
  | .list element, xs => .list (xs.map element.toJson)

/-- What is written for a field, if anything is. -/
def FieldType.written? (whenEmpty : Bool) : (type : FieldType) → type.Value → Option Json
  | .optional v, value => value.map v.toJson
  | .repeated v, xs =>
    if xs.isEmpty && !whenEmpty then none else some (.list (xs.map v.toJson))

theorem FieldType.eq_absent_of_written?_eq_none {whenEmpty : Bool} {type : FieldType}
    {value : type.Value} (h : type.written? whenEmpty value = none) : value = type.absent := by
  cases type with
  | optional v =>
    exact Option.map_eq_none_iff.mp h
  | repeated v =>
    rw [written?] at h
    split at h
    · rename_i hempty
      exact List.isEmpty_iff.mp (Bool.and_eq_true_iff.mp hempty).1
    · exact absurd h (Option.some_ne_none _)

namespace FieldType

variable {n : Nat} {whenEmpty : Bool} {v : ValueType}

theorem depth_optional_le_iff {value : Option v.Value} :
    (∀ json, (optional v).written? whenEmpty value = some json → json.depth ≤ n) ↔
      ∀ x ∈ value, (v.toJson x).depth ≤ n := by
  cases value with
  | none => exact ⟨fun _ x hx => (nomatch hx), fun _ json hjson => (nomatch hjson)⟩
  | some x =>
    constructor
    · rintro h y ⟨⟩
      exact h (v.toJson x) rfl
    · rintro h json ⟨⟩
      exact h x rfl

theorem depth_repeated_le_iff {xs : List v.Value} :
    (∀ json, (repeated v).written? whenEmpty xs = some json → json.depth ≤ n + 1) ↔
      ∀ x ∈ xs, (v.toJson x).depth ≤ n := by
  rw [written?]
  split
  · rename_i hempty
    rw [List.isEmpty_iff.mp (Bool.and_eq_true_iff.mp hempty).1]
    exact ⟨fun _ x hx => (List.not_mem_nil hx).elim, fun _ json hjson => (nomatch hjson)⟩
  · simp only [Option.some.injEq, forall_eq', Json.depth_list_le_iff, List.forall_mem_map]

end FieldType

namespace RecordType

/-- What a record holds in a field. -/
def holds : (t : RecordType) → t.Value → (f : t.Field) → t.FieldValue f
  | .fileSet, s, FileSetField.files => s.files
  | .file, f, FileField.name => f.name
  | .file, f, FileField.package => f.package
  | .file, f, FileField.dependencies => f.dependencies
  | .file, f, FileField.messages => f.messages
  | .file, f, FileField.options => f.options
  | .file, f, FileField.sourceInfo => f.sourceInfo
  | .file, f, FileField.syntaxVersion => f.syntaxVersion
  | .message, m, MessageField.name => m.name
  | .message, m, MessageField.fields => m.fields
  | .message, m, MessageField.nested => m.nested
  | .field, f, FieldField.name => f.name
  | .field, f, FieldField.number => f.number
  | .field, f, FieldField.jsonName => f.jsonName
  | .options, o, OptionsField.javaPackage => o.javaPackage
  | .options, o, OptionsField.javaOuterClassname => o.javaOuterClassname
  | .options, o, OptionsField.goPackage => o.goPackage
  | .options, o, OptionsField.objcClassPrefix => o.objcClassPrefix
  | .options, o, OptionsField.csharpNamespace => o.csharpNamespace
  | .options, o, OptionsField.swiftPrefix => o.swiftPrefix
  | .options, o, OptionsField.phpClassPrefix => o.phpClassPrefix
  | .options, o, OptionsField.phpNamespace => o.phpNamespace
  | .options, o, OptionsField.phpMetadataNamespace => o.phpMetadataNamespace
  | .options, o, OptionsField.rubyPackage => o.rubyPackage
  | .sourceInfo, s, SourceInfoField.records => s.records
  | .location, r, LocationField.path => r.path
  | .location, r, LocationField.span => r.span
  | .location, r, LocationField.leadingComments => r.leadingComments
  | .location, r, LocationField.trailingComments => r.trailingComments
  | .location, r, LocationField.leadingDetachedComments => r.leadingDetachedComments

/-- The members of a record that are none of its fields. -/
def others : (t : RecordType) → t.Value → Members
  | .options, o => o.other
  | _, _ => []

/-- What is written for a field of a record, if anything is. -/
def written? (t : RecordType) (r : t.Value) (f : t.Field) : Option Json :=
  (t.spec f).type.written? (t.spec f).writtenWhenEmpty (t.holds r f)

def member (t : RecordType) (r : t.Value) (f : t.Field) : Members :=
  (t.written? r f).toList.map fun v => ((t.spec f).name, v)

end RecordType

namespace FieldSpec

theorem optionalMember_eq {α : Type} (f : FieldSpec) (toJson : α → Json) (value : Option α) :
    f.optionalMember toJson value = (value.map toJson).toList.map fun v => (f.name, v) := by
  cases value <;> rfl

theorem repeatedMember_eq {α : Type} (f : FieldSpec) (toJson : α → Json) (xs : List α) :
    f.repeatedMember (xs.map toJson) =
      (if xs.isEmpty && !f.writtenWhenEmpty then none
        else some (Json.list (xs.map toJson))).toList.map fun v => (f.name, v) := by
  rw [repeatedMember, List.isEmpty_map]
  split <;> rfl

end FieldSpec

namespace RecordType

/-- A record is written as the members for its fields, in their order, and its other members. -/
theorem toJson_eq (t : RecordType) (r : t.Value) :
    t.toJson r = .object (t.fields.flatMap (t.member r) ++ t.others r) := by
  cases t with
  | fileSet =>
    simp only [fields, others, List.flatMap_cons, List.flatMap_nil, List.append_nil, toJson,
      FileSet.toJson, FieldSpec.repeatedMember_eq]
    rfl
  | file =>
    simp only [fields, others, List.flatMap_cons, List.flatMap_nil, List.append_nil, toJson,
      SchemaFile.toJson, FieldSpec.textMember, FieldSpec.textsMember, FieldSpec.optionalMember_eq,
      FieldSpec.repeatedMember_eq, List.append_assoc]
    rfl
  | message =>
    obtain ⟨name, fields, nested⟩ := r
    simp only [RecordType.fields, others, List.flatMap_cons, List.flatMap_nil, List.append_nil,
      toJson, MessageDef.toJson, MessageDef.allToJson_eq_map, FieldSpec.textMember,
      FieldSpec.optionalMember_eq, FieldSpec.repeatedMember_eq, List.append_assoc]
    rfl
  | field =>
    simp only [fields, others, List.flatMap_cons, List.flatMap_nil, List.append_nil, toJson,
      FieldDef.toJson, FieldSpec.textMember, FieldSpec.optionalMember_eq, List.append_assoc]
    rfl
  | options =>
    simp only [fields, others, List.flatMap_cons, List.flatMap_nil, List.append_nil, toJson,
      FileOptions.toJson, FieldSpec.textMember, FieldSpec.optionalMember_eq, List.append_assoc]
    rfl
  | sourceInfo =>
    simp only [fields, others, List.flatMap_cons, List.flatMap_nil, List.append_nil, toJson,
      SourceInfo.toJson, FieldSpec.repeatedMember_eq]
    rfl
  | location =>
    simp only [fields, others, List.flatMap_cons, List.flatMap_nil, List.append_nil, toJson,
      LocationRecord.toJson, FieldSpec.textMember, FieldSpec.textsMember, FieldSpec.int32sMember,
      FieldSpec.optionalMember_eq, FieldSpec.repeatedMember_eq, List.append_assoc]
    rfl

/-- A record takes one bracket more than the deepest of its members. -/
theorem depth_toJson_le_iff {t : RecordType} {r : t.Value} {n : Nat} :
    (t.toJson r).depth ≤ n + 1 ↔
      (∀ f ∈ t.fields, ∀ json, t.written? r f = some json → json.depth ≤ n) ∧
        ∀ m ∈ t.others r, m.2.depth ≤ n := by
  rw [toJson_eq, Json.depth_object_le_iff, List.forall_mem_append, List.forall_mem_flatMap]
  simp only [member, List.forall_mem_map, Option.mem_toList]

theorem depth_toJson_le_iff_of_closed {t : RecordType} {r : t.Value} (h : t.others r = [])
    {n : Nat} : (t.toJson r).depth ≤ n + 1 ↔
      ∀ f ∈ t.fields, ∀ json, t.written? r f = some json → json.depth ≤ n := by
  rw [depth_toJson_le_iff, h]
  exact and_iff_left fun m hm => (List.not_mem_nil hm).elim

theorem nodup_fields (t : RecordType) : t.fields.Nodup := by
  cases t <;> decide

theorem mem_fields (t : RecordType) (f : t.Field) : f ∈ t.fields := by
  cases t <;> cases f <;> decide

theorem field?_name (t : RecordType) (f : t.Field) : t.field? (t.spec f).name = some f := by
  cases t <;> cases f <;> rfl

theorem field?_secondName {t : RecordType} {f : t.Field} {key : String}
    (h : (t.spec f).secondName = some key) :
    t.field? key = some f := by
  cases t <;> cases f <;> cases h <;> rfl

/-- No key is a spelling of two fields. -/
theorem field?_eq_some_iff {t : RecordType} {f : t.Field} {key : String} :
    t.field? key = some f ↔ (t.spec f).isNamed key = true := by
  refine ⟨List.find?_some (p := fun f => (t.spec f).isNamed key), fun h => ?_⟩
  rw [FieldSpec.isNamed, Bool.or_eq_true, decide_eq_true_eq, decide_eq_true_eq] at h
  rcases h with rfl | h
  · exact field?_name t f
  · exact field?_secondName h

/-- The spellings of the fields of a type of record. -/
def spellings (t : RecordType) : List String :=
  t.fields.flatMap fun f => (t.spec f).name :: (t.spec f).secondName.toList

/-- A key that is none of the spellings names no field. -/
theorem field?_eq_none_iff {t : RecordType} {key : String} :
    t.field? key = none ↔ key ∉ t.spellings := by
  have hnamed (f : t.Field) :
      (t.spec f).isNamed key = true ↔ key ∈ (t.spec f).name :: (t.spec f).secondName.toList := by
    rw [FieldSpec.isNamed, Bool.or_eq_true, decide_eq_true_eq, decide_eq_true_eq, List.mem_cons,
      Option.mem_toList, eq_comm]
  rw [field?, List.find?_eq_none, spellings, List.mem_flatMap]
  simp only [hnamed, not_exists, not_and]

example : options.spellings =
    ["javaPackage", "java_package", "javaOuterClassname", "java_outer_classname",
      "goPackage", "go_package", "objcClassPrefix", "objc_class_prefix",
      "csharpNamespace", "csharp_namespace", "swiftPrefix", "swift_prefix",
      "phpClassPrefix", "php_class_prefix", "phpNamespace", "php_namespace",
      "phpMetadataNamespace", "php_metadata_namespace", "rubyPackage", "ruby_package"] := rfl

theorem holds_of_written?_eq_none {t : RecordType} {r : t.Value} {f : t.Field}
    (h : t.written? r f = none) : t.holds r f = (t.spec f).type.absent :=
  FieldType.eq_absent_of_written?_eq_none h

end RecordType

namespace Draft

variable {t : RecordType}

/-- A draft in which every field has the value that a record holds becomes that record. -/
theorem finish_eq {d : Draft t} {r : t.Value} (hfields : ∀ f, d.value f = t.holds r f)
    (hother : d.other = t.others r) : d.finish = r := by
  cases t with
  | fileSet =>
    simp only [finish, hfields]
    rfl
  | file =>
    simp only [finish, hfields]
    rfl
  | message =>
    obtain ⟨name, fields, nested⟩ := r
    simp only [finish, hfields]
    rfl
  | field =>
    simp only [finish, hfields]
    rfl
  | options =>
    simp only [finish, hfields, hother]
    rfl
  | sourceInfo =>
    simp only [finish, hfields]
    rfl
  | location =>
    simp only [finish, hfields]
    rfl

/-- What becomes of a draft depends on nothing but the values of its fields and its other
members. -/
theorem finish_congr {d d' : Draft t} (hfields : ∀ f, d.value f = d'.value f)
    (hother : d.other = d'.other) : d.finish = d'.finish := by
  cases t <;> simp only [finish, hfields, hother]

theorem holds_finish (d : Draft t) (f : t.Field) : t.holds d.finish f = d.value f := by
  cases t <;> cases f <;> rfl

/-- Only an open record has the other members of its draft. -/
theorem others_finish (d : Draft t) :
    t.others d.finish = [] ∨ t.others d.finish = d.other := by
  cases t with
  | options => exact Or.inr rfl
  | fileSet | file | message | field | sourceInfo | location => exact Or.inl rfl

end Draft

/-- The options of files inside a record, and the record itself if it is options. -/
def RecordType.optionsIn : (t : RecordType) → t.Value → List FileOptions
  | .fileSet, s => s.files.flatMap fun f => f.options.toList
  | .file, f => f.options.toList
  | .options, o => [o]
  | _, _ => []

def ValueType.optionsIn : (v : ValueType) → v.Value → List FileOptions
  | .record t, r => t.optionsIn r
  | .list element, xs => xs.flatMap element.optionsIn
  | _, _ => []

def FieldType.optionsIn : (type : FieldType) → type.Value → List FileOptions
  | .optional v, value => value.toList.flatMap v.optionsIn
  | .repeated v, xs => xs.flatMap v.optionsIn

theorem RecordType.mem_optionsIn_of_holds {t : RecordType} {r : t.Value} {f : t.Field}
    {o : FileOptions} (h : o ∈ (t.spec f).type.optionsIn (t.holds r f)) : o ∈ t.optionsIn r := by
  cases t with
  | fileSet =>
    cases f
    exact h
  | file =>
    cases f with
    | options =>
      obtain ⟨o', ho', h⟩ := List.mem_flatMap.mp h
      exact List.mem_singleton.mp h ▸ ho'
    | name | package | dependencies | messages | sourceInfo | syntaxVersion =>
      obtain ⟨x, -, h⟩ := List.mem_flatMap.mp h
      exact (List.not_mem_nil h).elim
  | message | field | options | sourceInfo | location =>
    cases f <;>
    · obtain ⟨x, -, h⟩ := List.mem_flatMap.mp h
      exact (List.not_mem_nil h).elim

/-- Options inside a record are inside one of its fields, or are the record itself. -/
theorem RecordType.holds_of_mem_optionsIn {t : RecordType} {r : t.Value} {o : FileOptions}
    (h : o ∈ t.optionsIn r) :
    (∃ f, o ∈ (t.spec f).type.optionsIn (t.holds r f)) ∨ (t = .options ∧ o.other = t.others r) := by
  cases t with
  | fileSet => exact Or.inl ⟨FileSetField.files, h⟩
  | file =>
    exact Or.inl ⟨FileField.options, List.mem_flatMap.mpr ⟨o, h, List.mem_singleton_self o⟩⟩
  | options => exact Or.inr ⟨rfl, congrArg FileOptions.other (List.mem_singleton.mp h)⟩
  | message | field | sourceInfo | location => exact (List.not_mem_nil h).elim

end SchemaSpans
