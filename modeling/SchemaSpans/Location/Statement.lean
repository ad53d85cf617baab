import SchemaSpans.Path.Basic

/-!
The statements that a schema file has at most once. Each of them stands at a path
that is known without looking at the file.
-/

namespace SchemaSpans

/-- A statement of a schema file that has a fixed path. -/
inductive Statement where
  | syntaxVersion
  | package
  | csharpNamespace
  | javaPackage
  | phpNamespace
  | rubyPackage
  | goPackage
  | javaOuterClassname
  | objcClassPrefix
  | swiftPrefix
  | phpClassPrefix
  | phpMetadataNamespace
deriving DecidableEq

namespace Statement

/-- All statements, in the order in which they are listed. -/
def all : List Statement :=
  [syntaxVersion, package, csharpNamespace, javaPackage, phpNamespace, rubyPackage, goPackage,
    javaOuterClassname, objcClassPrefix, swiftPrefix, phpClassPrefix, phpMetadataNamespace]

/-- The name of a statement: its keyword, or the option it sets. -/
def name : Statement → String
  | syntaxVersion => "syntax"
  | package => "package"
  | csharpNamespace => "csharp_namespace"
  | javaPackage => "java_package"
  | phpNamespace => "php_namespace"
  | rubyPackage => "ruby_package"
  | goPackage => "go_package"
  | javaOuterClassname => "java_outer_classname"
  | objcClassPrefix => "objc_class_prefix"
  | swiftPrefix => "swift_prefix"
  | phpClassPrefix => "php_class_prefix"
  | phpMetadataNamespace => "php_metadata_namespace"

/-- The path of a statement. -/
def path : Statement → DescriptorPath
  | syntaxVersion => [FileNumber.syntaxVersion]
  | package => [FileNumber.package]
  | csharpNamespace => [FileNumber.options, OptionNumber.csharpNamespace]
  | javaPackage => [FileNumber.options, OptionNumber.javaPackage]
  | phpNamespace => [FileNumber.options, OptionNumber.phpNamespace]
  | rubyPackage => [FileNumber.options, OptionNumber.rubyPackage]
  | goPackage => [FileNumber.options, OptionNumber.goPackage]
  | javaOuterClassname => [FileNumber.options, OptionNumber.javaOuterClassname]
  | objcClassPrefix => [FileNumber.options, OptionNumber.objcClassPrefix]
  | swiftPrefix => [FileNumber.options, OptionNumber.swiftPrefix]
  | phpClassPrefix => [FileNumber.options, OptionNumber.phpClassPrefix]
  | phpMetadataNamespace => [FileNumber.options, OptionNumber.phpMetadataNamespace]

/-- The place of a statement in the list of all. -/
def index (s : Statement) : Nat :=
  all.idxOf s

theorem mem_all (s : Statement) : s ∈ all := by
  cases s <;> decide

/-- The statement with this name. -/
def ofName (name : String) : Except Error Statement :=
  match all.find? fun s => s.name = name with
  | some s => .ok s
  | none => .error (.unknownStatement name)

end Statement

end SchemaSpans
