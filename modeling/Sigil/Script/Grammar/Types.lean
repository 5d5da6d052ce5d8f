import Sigil.Script.Grammar.Expression

/-!
# Script/Grammar/Types — type annotations and the shapes of objects

Types matter to the renaming pass only through the private names in them: as keys of object types
and behind `typeof`.
-/

namespace Sigil.Script.Grammar

open Form

/-- A colon and a type. -/
def colonType : Form := .seq [sign ":", .rule .type]

/-- The types given to a generic name. -/
def typeArguments : Form := .seq [sign "<", listed (.rule .type), sign ">"]

/-- The types that a generic name takes. -/
def typeParameters : Form :=
  .seq [sign "<",
    listed (.seq [.many (.seq [words ["const", "in", "out"], ahead name]), name,
      opt (.seq [word "extends", .rule .type]), opt (.seq [sign "=", .rule .type])]),
    sign ">"]

/-- A type, which may depend on another. -/
def type : Form :=
  .seq [.rule .unionType,
    opt (.seq [sameLine, word "extends", .rule .unionType, sign "?", .rule .type, sign ":",
      .rule .type])]

/-- Types of which one or all must fit. -/
def unionType : Form :=
  let bar := Form.first [sign "|", sign "&"]
  .seq [opt bar, separated (.rule .unaryType) bar]

/-- The name that a predicate speaks of. -/
def subject : Form := .first [name, word "this"]

/-- A type with the words in front of it. -/
def unaryType : Form :=
  .ifAhead (.seq [word "asserts", sameLine, subject])
    (.seq [word "asserts", subject, opt (.seq [word "is", .rule .type])]) <|
  .ifAhead (.seq [subject, sameLine, word "is"])
    (.seq [subject, word "is", .rule .type]) <|
  .first [
    .seq [words ["keyof", "unique", "readonly"], .rule .unaryType],
    .seq [word "infer", name, opt (.seq [word "extends", .rule .unionType])],
    .seq [opt (word "abstract"), word "new", opt (.rule .typeParameters), .rule .parameters,
      sign "=>", .rule .type],
    .seq [opt (.rule .typeParameters), .rule .parameters, sign "=>", .rule .type],
    .seq [.rule .primaryType,
      .many (.seq [sameLine, sign "[", opt (.rule .type), sign "]"])]]

/-- Names behind points, and type arguments. -/
def typePath (step : Form) : Form :=
  .seq [.many (.seq [sign ".", step]), opt (.seq [sameLine, .rule .typeArguments])]

/-- A type without anything in front of it or behind it. -/
def primaryType : Form :=
  let imported := Form.seq [word "import",
    bracketed (.seq [.rule .type, opt (.seq [comma, .rule .objectLiteral])]), typePath anyName]
  .first [
    .seq [word "typeof", .first [imported, .seq [subject, typePath memberName]]],
    imported,
    .seq [.first [name, words ["this", "void", "null", "true", "false"]], typePath anyName],
    .token .string,
    .seq [opt (sign "-"), .token .number],
    templateOf (.rule .type),
    bracketed (.rule .type),
    .seq [sign "[", listed (.seq [opt (sign "..."),
      .first [.seq [anyName, opt (sign "?"), sign ":", .rule .type],
        .seq [.rule .type, opt (sign "?")]]]), sign "]"],
    .rule .objectType]

/-- A key that stands for all keys of a type. -/
def indexSignature : Form := .seq [sign "[", name, sign ":", .rule .type, sign "]", colonType]

/-- One member of an object type. -/
def typeMember : Form :=
  let plus := opt (.first [sign "+", sign "-"])
  .first [
    .seq [opt (.seq [plus, word "readonly"]), sign "[", name, word "in", .rule .type,
      opt (.seq [word "as", .rule .type]), sign "]", opt (.seq [plus, sign "?"]),
      opt colonType],
    .seq [opt (word "readonly"), indexSignature],
    signature,
    .seq [opt (word "abstract"), word "new", signature],
    .seq [.many (methodWord ["readonly", "get", "set", "static", "public", "private", "protected"]),
      .rule .propertyName, opt (sign "?"), .first [signature, opt colonType]]]

/-- The members of an object type or an interface. -/
def objectType : Form :=
  braced (.many (.first [sign ";", comma,
    .seq [typeMember, .first [sign ";", comma, ahead (sign "\x7d"), .token .lineEnd]]]))

/-- Names with points between them. -/
def entityName : Form := separated anyName (sign ".")

end Sigil.Script.Grammar
