import SchemaSpans.Descriptor.File

/-!
The JSON form of descriptors, as data. Each of the seven types of record has fields
in a fixed order; a field has a name, sometimes a second spelling, and a type. One
reader and one set of rules serve all seven.
-/

namespace SchemaSpans

/-- The types of record that have a JSON form. -/
inductive RecordType where
  | fileSet
  | file
  | message
  | field
  | options
  | sourceInfo
  | location
deriving DecidableEq

/-- The types of value that a field can have. -/
inductive ValueType where
  | string
  | int32
  | record (type : RecordType)
  | list (element : ValueType)
deriving DecidableEq

/-- A field holds a value or is absent, or holds any number of values. -/
inductive FieldType where
  | optional (value : ValueType)
  | repeated (element : ValueType)
deriving DecidableEq

/-- How a field appears in JSON. -/
structure FieldSpec where
  name : String
  /-- Another spelling of the name that is read as well. -/
  secondName : Option String := none
  type : FieldType
  /-- Whether an empty list is written out. -/
  writtenWhenEmpty : Bool := false

/-- Whether a key names the field. -/
def FieldSpec.isNamed (f : FieldSpec) (key : String) : Bool :=
  f.name = key || f.secondName = some key

/-- The fields of a set of files. -/
inductive FileSetField where
  | files
deriving DecidableEq

/-- The fields of a schema file. -/
inductive FileField where
  | name
  | package
  | dependencies
  | messages
  | options
  | sourceInfo
  | syntaxVersion
deriving DecidableEq

/-- The fields of a message. -/
inductive MessageField where
  | name
  | fields
  | nested
deriving DecidableEq

/-- The fields of a field of a message. -/
inductive FieldField where
  | name
  | number
  | jsonName
deriving DecidableEq

/-- The options of a file that have fields of their own. -/
inductive OptionsField where
  | javaPackage
  | javaOuterClassname
  | goPackage
  | objcClassPrefix
  | csharpNamespace
  | swiftPrefix
  | phpClassPrefix
  | phpNamespace
  | phpMetadataNamespace
  | rubyPackage
deriving DecidableEq

/-- The fields of a location table. -/
inductive SourceInfoField where
  | records
deriving DecidableEq

/-- The fields of a location record. -/
inductive LocationField where
  | path
  | span
  | leadingComments
  | trailingComments
  | leadingDetachedComments
deriving DecidableEq

namespace FieldType

/-- A string that may be absent. -/
abbrev text : FieldType := optional .string

/-- A list of strings. -/
abbrev texts : FieldType := repeated .string

end FieldType

/-- The JSON form of each field of a set of files. -/
def FileSetField.spec : FileSetField → FieldSpec
  | files =>
    { name := "file", type := .repeated (.record .file), writtenWhenEmpty := true }

/-- The JSON form of each field of a schema file. -/
def FileField.spec : FileField → FieldSpec
  | name => { name := "name", type := .text }
  | package => { name := "package", type := .text }
  | dependencies => { name := "dependency", type := .texts }
  | messages =>
    { name := "messageType", secondName := "message_type", type := .repeated (.record .message) }
  | options => { name := "options", type := .optional (.record .options) }
  | sourceInfo =>
    { name := "sourceCodeInfo", secondName := "source_code_info"
      type := .optional (.record .sourceInfo) }
  | syntaxVersion => { name := "syntax", type := .text }

/-- The JSON form of each field of a message. -/
def MessageField.spec : MessageField → FieldSpec
  | name => { name := "name", type := .text }
  | fields => { name := "field", type := .repeated (.record .field) }
  | nested =>
    { name := "nestedType", secondName := "nested_type", type := .repeated (.record .message) }

/-- The JSON form of each field of a field of a message. -/
def FieldField.spec : FieldField → FieldSpec
  | name => { name := "name", type := .text }
  | number => { name := "number", type := .optional .int32 }
  | jsonName => { name := "jsonName", secondName := "json_name", type := .text }

/-- The JSON form of each option that has a field of its own. -/
def OptionsField.spec : OptionsField → FieldSpec
  | javaPackage => { name := "javaPackage", secondName := "java_package", type := .text }
  | javaOuterClassname =>
    { name := "javaOuterClassname", secondName := "java_outer_classname", type := .text }
  | goPackage => { name := "goPackage", secondName := "go_package", type := .text }
  | objcClassPrefix =>
    { name := "objcClassPrefix", secondName := "objc_class_prefix", type := .text }
  | csharpNamespace =>
    { name := "csharpNamespace", secondName := "csharp_namespace", type := .text }
  | swiftPrefix => { name := "swiftPrefix", secondName := "swift_prefix", type := .text }
  | phpClassPrefix =>
    { name := "phpClassPrefix", secondName := "php_class_prefix", type := .text }
  | phpNamespace => { name := "phpNamespace", secondName := "php_namespace", type := .text }
  | phpMetadataNamespace =>
    { name := "phpMetadataNamespace", secondName := "php_metadata_namespace", type := .text }
  | rubyPackage => { name := "rubyPackage", secondName := "ruby_package", type := .text }

/-- The JSON form of each field of a location table. -/
def SourceInfoField.spec : SourceInfoField → FieldSpec
  | records =>
    { name := "location", type := .repeated (.record .location), writtenWhenEmpty := true }

/-- The JSON form of each field of a location record. -/
def LocationField.spec : LocationField → FieldSpec
  | path => { name := "path", type := .repeated .int32, writtenWhenEmpty := true }
  | span => { name := "span", type := .repeated .int32, writtenWhenEmpty := true }
  | leadingComments =>
    { name := "leadingComments", secondName := "leading_comments", type := .text }
  | trailingComments =>
    { name := "trailingComments", secondName := "trailing_comments", type := .text }
  | leadingDetachedComments =>
    { name := "leadingDetachedComments", secondName := "leading_detached_comments"
      type := .texts }

namespace RecordType

/-- The name of a type of record. -/
def name : RecordType → String
  | fileSet => "FileDescriptorSet"
  | file => "FileDescriptorProto"
  | message => "DescriptorProto"
  | field => "FieldDescriptorProto"
  | options => "FileOptions"
  | sourceInfo => "SourceCodeInfo"
  | location => "Location"

/-- All types of record. -/
def all : List RecordType :=
  [fileSet, file, message, field, options, sourceInfo, location]

/-- The type of record with this name. -/
def named? (name : String) : Option RecordType :=
  all.find? fun t => t.name = name

/-- The records of a type. -/
abbrev Value : RecordType → Type
  | fileSet => FileSet
  | file => SchemaFile
  | message => MessageDef
  | field => FieldDef
  | options => FileOptions
  | sourceInfo => SourceInfo
  | location => LocationRecord

/-- The fields of a type of record. -/
abbrev Field : RecordType → Type
  | fileSet => FileSetField
  | file => FileField
  | message => MessageField
  | field => FieldField
  | options => OptionsField
  | sourceInfo => SourceInfoField
  | location => LocationField

instance : (t : RecordType) → DecidableEq t.Value
  | fileSet => inferInstanceAs (DecidableEq FileSet)
  | file => inferInstanceAs (DecidableEq SchemaFile)
  | message => inferInstanceAs (DecidableEq MessageDef)
  | field => inferInstanceAs (DecidableEq FieldDef)
  | options => inferInstanceAs (DecidableEq FileOptions)
  | sourceInfo => inferInstanceAs (DecidableEq SourceInfo)
  | location => inferInstanceAs (DecidableEq LocationRecord)

instance : (t : RecordType) → DecidableEq t.Field
  | fileSet => inferInstanceAs (DecidableEq FileSetField)
  | file => inferInstanceAs (DecidableEq FileField)
  | message => inferInstanceAs (DecidableEq MessageField)
  | field => inferInstanceAs (DecidableEq FieldField)
  | options => inferInstanceAs (DecidableEq OptionsField)
  | sourceInfo => inferInstanceAs (DecidableEq SourceInfoField)
  | location => inferInstanceAs (DecidableEq LocationField)

/-- The JSON form of a field. -/
abbrev spec : (t : RecordType) → t.Field → FieldSpec
  | fileSet => FileSetField.spec
  | file => FileField.spec
  | message => MessageField.spec
  | field => FieldField.spec
  | options => OptionsField.spec
  | sourceInfo => SourceInfoField.spec
  | location => LocationField.spec

/-- The fields of a type of record, in order. -/
def fields : (t : RecordType) → List t.Field
  | fileSet => [FileSetField.files]
  | file =>
    [FileField.name, .package, .dependencies, .messages, .options, .sourceInfo, .syntaxVersion]
  | message => [MessageField.name, .fields, .nested]
  | field => [FieldField.name, .number, .jsonName]
  | options =>
    [OptionsField.javaPackage, .javaOuterClassname, .goPackage, .objcClassPrefix,
      .csharpNamespace, .swiftPrefix, .phpClassPrefix, .phpNamespace, .phpMetadataNamespace,
      .rubyPackage]
  | sourceInfo => [SourceInfoField.records]
  | location =>
    [LocationField.path, .span, .leadingComments, .trailingComments, .leadingDetachedComments]

/-- The field that a key names. -/
def field? (t : RecordType) (key : String) : Option t.Field :=
  t.fields.find? fun f => (t.spec f).isNamed key

/--
An open record keeps the members that are none of its fields, and has no list form.
All other records pass over such members.
-/
def isOpen (t : RecordType) : Bool :=
  t = options

end RecordType

/-- The values of a type. -/
abbrev ValueType.Value : ValueType → Type
  | string => String
  | int32 => Int32
  | record type => type.Value
  | list element => List element.Value

/-- What a field of a type holds. -/
abbrev FieldType.Value : FieldType → Type
  | optional value => Option value.Value
  | repeated element => List element.Value

/-- What a field holds that is not given. -/
def FieldType.absent : (type : FieldType) → type.Value
  | optional _ => none
  | repeated _ => []

/-- What a field of a record holds. -/
abbrev RecordType.FieldValue (t : RecordType) (f : t.Field) : Type :=
  (t.spec f).type.Value

end SchemaSpans
