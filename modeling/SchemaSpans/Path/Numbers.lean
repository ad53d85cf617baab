/-!
The numbers of the fields that a path can lead to: those of a schema file and those
of its options.
-/

namespace SchemaSpans

namespace FileNumber

abbrev name : Int32 := 1
abbrev package : Int32 := 2
abbrev dependency : Int32 := 3
abbrev messageType : Int32 := 4
abbrev enumType : Int32 := 5
abbrev service : Int32 := 6
abbrev extension : Int32 := 7
abbrev options : Int32 := 8
abbrev sourceCodeInfo : Int32 := 9
abbrev publicDependency : Int32 := 10
abbrev weakDependency : Int32 := 11
abbrev syntaxVersion : Int32 := 12
abbrev edition : Int32 := 14

/-- The fields of a schema file with their numbers. -/
def table : List (String × Int32) :=
  [("NAME", name),
   ("PACKAGE", package),
   ("DEPENDENCY", dependency),
   ("MESSAGE_TYPE", messageType),
   ("ENUM_TYPE", enumType),
   ("SERVICE", service),
   ("EXTENSION", extension),
   ("OPTIONS", options),
   ("SOURCE_CODE_INFO", sourceCodeInfo),
   ("PUBLIC_DEPENDENCY", publicDependency),
   ("WEAK_DEPENDENCY", weakDependency),
   ("SYNTAX", syntaxVersion),
   ("EDITION", edition)]

/-- The numbers of the fields of a schema file. -/
def all : List Int32 :=
  table.map Prod.snd

end FileNumber

namespace OptionNumber

abbrev javaPackage : Int32 := 1
abbrev javaOuterClassname : Int32 := 8
abbrev optimizeFor : Int32 := 9
abbrev javaMultipleFiles : Int32 := 10
abbrev goPackage : Int32 := 11
abbrev ccGenericServices : Int32 := 16
abbrev javaGenericServices : Int32 := 17
abbrev pyGenericServices : Int32 := 18
abbrev javaGenerateEqualsAndHash : Int32 := 20
abbrev deprecated : Int32 := 23
abbrev javaStringCheckUtf8 : Int32 := 27
abbrev ccEnableArenas : Int32 := 31
abbrev objcClassPrefix : Int32 := 36
abbrev csharpNamespace : Int32 := 37
abbrev swiftPrefix : Int32 := 39
abbrev phpClassPrefix : Int32 := 40
abbrev phpNamespace : Int32 := 41
abbrev phpGenericServices : Int32 := 42
abbrev phpMetadataNamespace : Int32 := 44
abbrev rubyPackage : Int32 := 45
abbrev features : Int32 := 50
abbrev uninterpretedOption : Int32 := 999

/-- Options that a schema defines for itself have this number or a greater one. -/
abbrev firstExtension : Int32 := 1000

/-- The options of a file with their numbers. -/
def table : List (String × Int32) :=
  [("JAVA_PACKAGE", javaPackage),
   ("JAVA_OUTER_CLASSNAME", javaOuterClassname),
   ("OPTIMIZE_FOR", optimizeFor),
   ("JAVA_MULTIPLE_FILES", javaMultipleFiles),
   ("GO_PACKAGE", goPackage),
   ("CC_GENERIC_SERVICES", ccGenericServices),
   ("JAVA_GENERIC_SERVICES", javaGenericServices),
   ("PY_GENERIC_SERVICES", pyGenericServices),
   ("JAVA_GENERATE_EQUALS_AND_HASH", javaGenerateEqualsAndHash),
   ("DEPRECATED", deprecated),
   ("JAVA_STRING_CHECK_UTF8", javaStringCheckUtf8),
   ("CC_ENABLE_ARENAS", ccEnableArenas),
   ("OBJC_CLASS_PREFIX", objcClassPrefix),
   ("CSHARP_NAMESPACE", csharpNamespace),
   ("SWIFT_PREFIX", swiftPrefix),
   ("PHP_CLASS_PREFIX", phpClassPrefix),
   ("PHP_NAMESPACE", phpNamespace),
   ("PHP_GENERIC_SERVICES", phpGenericServices),
   ("PHP_METADATA_NAMESPACE", phpMetadataNamespace),
   ("RUBY_PACKAGE", rubyPackage),
   ("FEATURES", features),
   ("UNINTERPRETED_OPTION", uninterpretedOption)]

/-- The numbers of the options of a file. -/
def all : List Int32 :=
  table.map Prod.snd

/-- The options of a file with their numbers, and behind them where extensions begin. -/
def tableWithExtensions : List (String × Int32) :=
  table ++ [("FIRST_EXTENSION", firstExtension)]

end OptionNumber

end SchemaSpans
