import SchemaSpans.Schema.Basic

/-!
Records in the making. A draft tells for every field whether it has been given, also
when it was given as absent, so that a second time can be noticed.
-/

namespace SchemaSpans

/-- What has been read of a record. -/
structure Draft (t : RecordType) where
  /-- What a field was given as, if it was given. -/
  given : (f : t.Field) → Option (t.FieldValue f)
  /-- The members that are no fields, if the record is open. -/
  other : Members

namespace Draft

variable {t : RecordType}

/-- The draft of which nothing has been read. -/
def empty (t : RecordType) : Draft t where
  given _ := none
  other := []

/-- The draft with one more field given. -/
def give (d : Draft t) (f : t.Field) (value : t.FieldValue f) : Draft t :=
  { d with given := fun g => if h : f = g then some (h ▸ value) else d.given g }

/-- The draft with one more member that is no field. -/
def keep (d : Draft t) (key : String) (value : Json) : Draft t :=
  { d with other := d.other.insert key value }

/-- What a field holds in the end. -/
def value (d : Draft t) (f : t.Field) : t.FieldValue f :=
  (d.given f).getD (t.spec f).type.absent

@[simp] theorem given_empty (f : t.Field) : (empty t).given f = none := rfl

@[simp] theorem given_give_self (d : Draft t) (f : t.Field) (value : t.FieldValue f) :
    (d.give f value).given f = some value := by
  simp [give]

theorem given_give_of_ne (d : Draft t) {f g : t.Field} (h : f ≠ g) (value : t.FieldValue f) :
    (d.give f value).given g = d.given g := by
  simp [give, h]

@[simp] theorem given_keep (d : Draft t) (key : String) (value : Json) (f : t.Field) :
    (d.keep key value).given f = d.given f := rfl

@[simp] theorem other_give (d : Draft t) (f : t.Field) (value : t.FieldValue f) :
    (d.give f value).other = d.other := rfl

/-- The record that a draft has become. -/
def finish : {t : RecordType} → Draft t → t.Value
  | .fileSet, d => { files := d.value FileSetField.files }
  | .file, d =>
    { name := d.value FileField.name
      package := d.value FileField.package
      dependencies := d.value FileField.dependencies
      messages := d.value FileField.messages
      options := d.value FileField.options
      sourceInfo := d.value FileField.sourceInfo
      syntaxVersion := d.value FileField.syntaxVersion }
  | .message, d =>
    { name := d.value MessageField.name
      fields := d.value MessageField.fields
      nested := d.value MessageField.nested }
  | .field, d =>
    { name := d.value FieldField.name
      number := d.value FieldField.number
      jsonName := d.value FieldField.jsonName }
  | .options, d =>
    { javaPackage := d.value OptionsField.javaPackage
      javaOuterClassname := d.value OptionsField.javaOuterClassname
      goPackage := d.value OptionsField.goPackage
      objcClassPrefix := d.value OptionsField.objcClassPrefix
      csharpNamespace := d.value OptionsField.csharpNamespace
      swiftPrefix := d.value OptionsField.swiftPrefix
      phpClassPrefix := d.value OptionsField.phpClassPrefix
      phpNamespace := d.value OptionsField.phpNamespace
      phpMetadataNamespace := d.value OptionsField.phpMetadataNamespace
      rubyPackage := d.value OptionsField.rubyPackage
      other := d.other }
  | .sourceInfo, d => { records := d.value SourceInfoField.records }
  | .location, d =>
    { path := d.value LocationField.path
      span := d.value LocationField.span
      leadingComments := d.value LocationField.leadingComments
      trailingComments := d.value LocationField.trailingComments
      leadingDetachedComments := d.value LocationField.leadingDetachedComments }

end Draft

end SchemaSpans
