import SchemaSpans.Json.Written
import SchemaSpans.Schema.Basic

/-!
Records as JSON values: fields in their order under their first spelling, absent
ones left out, and behind them the other members of an open record.
-/

namespace SchemaSpans

namespace FieldSpec

variable {α : Type}

/-- The member for a field that may be absent. -/
def optionalMember (f : FieldSpec) (toJson : α → Json) (value : Option α) : Members :=
  match value with
  | none => []
  | some a => [(f.name, toJson a)]

/-- The member for a field that holds a list, whose elements are given as JSON values. -/
def repeatedMember (f : FieldSpec) (elements : List Json) : Members :=
  if elements.isEmpty && !f.writtenWhenEmpty then [] else [(f.name, .list elements)]

/-- The member for a string that may be absent. -/
def textMember (f : FieldSpec) (value : Option String) : Members :=
  f.optionalMember .string value

/-- The member for a list of strings. -/
def textsMember (f : FieldSpec) (values : List String) : Members :=
  f.repeatedMember (values.map .string)

/-- The member for a list of integers. -/
def int32sMember (f : FieldSpec) (values : List Int32) : Members :=
  f.repeatedMember (values.map .ofInt32)

end FieldSpec

/-- A location record as a JSON value. -/
def LocationRecord.toJson (r : LocationRecord) : Json :=
  .object <|
    LocationField.path.spec.int32sMember r.path ++
    LocationField.span.spec.int32sMember r.span ++
    LocationField.leadingComments.spec.textMember r.leadingComments ++
    LocationField.trailingComments.spec.textMember r.trailingComments ++
    LocationField.leadingDetachedComments.spec.textsMember r.leadingDetachedComments

/-- A location table as a JSON value. -/
def SourceInfo.toJson (s : SourceInfo) : Json :=
  .object (SourceInfoField.records.spec.repeatedMember (s.records.map LocationRecord.toJson))

/-- The options of a file as a JSON value. -/
def FileOptions.toJson (o : FileOptions) : Json :=
  .object <|
    OptionsField.javaPackage.spec.textMember o.javaPackage ++
    OptionsField.javaOuterClassname.spec.textMember o.javaOuterClassname ++
    OptionsField.goPackage.spec.textMember o.goPackage ++
    OptionsField.objcClassPrefix.spec.textMember o.objcClassPrefix ++
    OptionsField.csharpNamespace.spec.textMember o.csharpNamespace ++
    OptionsField.swiftPrefix.spec.textMember o.swiftPrefix ++
    OptionsField.phpClassPrefix.spec.textMember o.phpClassPrefix ++
    OptionsField.phpNamespace.spec.textMember o.phpNamespace ++
    OptionsField.phpMetadataNamespace.spec.textMember o.phpMetadataNamespace ++
    OptionsField.rubyPackage.spec.textMember o.rubyPackage ++
    o.other

/-- A field of a message as a JSON value. -/
def FieldDef.toJson (f : FieldDef) : Json :=
  .object <|
    FieldField.name.spec.textMember f.name ++
    FieldField.number.spec.optionalMember .ofInt32 f.number ++
    FieldField.jsonName.spec.textMember f.jsonName

namespace MessageDef

mutual

/-- A message as a JSON value. -/
def toJson : MessageDef → Json
  | ⟨name, fields, nested⟩ =>
    .object <|
      MessageField.name.spec.textMember name ++
      MessageField.fields.spec.repeatedMember (fields.map FieldDef.toJson) ++
      MessageField.nested.spec.repeatedMember (allToJson nested)

/-- Messages as JSON values. -/
def allToJson : List MessageDef → List Json
  | [] => []
  | m :: rest => toJson m :: allToJson rest

end

theorem allToJson_eq_map (ms : List MessageDef) : allToJson ms = ms.map toJson := by
  induction ms with
  | nil => rfl
  | cons m rest ih => simp [allToJson, ih]

end MessageDef

/-- A schema file as a JSON value. -/
def SchemaFile.toJson (f : SchemaFile) : Json :=
  .object <|
    FileField.name.spec.textMember f.name ++
    FileField.package.spec.textMember f.package ++
    FileField.dependencies.spec.textsMember f.dependencies ++
    FileField.messages.spec.repeatedMember (f.messages.map MessageDef.toJson) ++
    FileField.options.spec.optionalMember FileOptions.toJson f.options ++
    FileField.sourceInfo.spec.optionalMember SourceInfo.toJson f.sourceInfo ++
    FileField.syntaxVersion.spec.textMember f.syntaxVersion

/-- A set of files as a JSON value. -/
def FileSet.toJson (s : FileSet) : Json :=
  .object (FileSetField.files.spec.repeatedMember (s.files.map SchemaFile.toJson))

/-- A record as a JSON value. -/
def RecordType.toJson : (t : RecordType) → t.Value → Json
  | fileSet => FileSet.toJson
  | file => SchemaFile.toJson
  | message => MessageDef.toJson
  | field => FieldDef.toJson
  | options => FileOptions.toJson
  | sourceInfo => SourceInfo.toJson
  | location => LocationRecord.toJson

end SchemaSpans
