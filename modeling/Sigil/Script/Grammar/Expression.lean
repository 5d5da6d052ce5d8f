import Sigil.Script.Form

/-!
# Script/Grammar/Expression — operands, operators, literals and functions

Expressions are read as chains of operands with operators between them.  Which operator binds
tighter makes no difference to the private names of a script, so chains stay flat; only the test `#x
in e` becomes a node of its own, with the private name on its left.
-/

namespace Sigil.Script.Grammar

open Form

/-! ## Names and words -/

/-- A name that is not a reserved word. -/
def name : Form := .token .name

/-- Any name. -/
def anyName : Form := .token .anyName

/-- A private name. -/
def privateName : Form := .token .privateName

/-- A name behind a point. -/
def memberName : Form := .first [privateName, anyName]

/-- A comma. -/
def comma : Form := sign ","

/-- Nothing, on the line of the last token. -/
def sameLine : Form := .token .sameLine

/-- One of several operators. -/
def operator (which : List String) : Form := .token (.operator which)

/-- The sign of an initial value. -/
def equals : Form := operator ["="]

/-- An initial value, if there is one. -/
def initial : Form := opt (.seq [equals, .rule .assignment])

/-- A colon and a type, if the dialect has types and there is one. -/
def typeMark : Form := ifTyped (opt (.rule .colonType))

/-! ## Functions -/

/-- The parameters of a function and the type of its result. -/
def signature : Form :=
  .seq [ifTyped (opt (.rule .typeParameters)), .rule .parameters, typeMark]

/-- A function with a body, from the word `function` on. -/
def functionExpression : Form :=
  .seq [word "function", opt (sign "*"), opt name, signature, .rule .block]

/-- Words in front of the name of a method. -/
def methodWord (ws : List String) : Form :=
  .seq [words ws, ahead (.first [anyName, privateName, .token .string, .token .number, sign "[",
    sign "*"])]

/-- One parameter of a function. -/
def parameter : Form :=
  .seq [.many (.rule .decorator),
    ifTyped (.many (.seq [words ["public", "private", "protected", "readonly", "override"],
      ahead (.first [name, sign "\x7b", sign "["])])),
    opt (sign "..."),
    .first [.rule .pattern, onlyTyped (word "this")],
    ifTyped (opt (sign "?")), typeMark, initial]

/-- The parameters of a function. -/
def parameters : Form := bracketed (listed parameter)

/-- A name, or an object or array taken apart. -/
def pattern : Form :=
  .first [name,
    braced (loose (.first [
      .seq [sign "...", .rule .pattern],
      .seq [.rule .propertyName, sign ":", .rule .pattern, initial],
      .seq [name, initial]])),
    .seq [sign "[", loose (.first [
      .seq [sign "...", .rule .pattern],
      .seq [.rule .pattern, initial]]), sign "]"]]

/-- An arrow function up to and with its arrow. -/
def arrowHead : Form :=
  let rest := Form.seq [.first [name, signature], operator ["=>"]]
  .first [.seq [word "async", sameLine, rest], rest]

/-- An arrow function. -/
def arrowFunction : Form :=
  .seq [.rule .arrowHead, .ifAhead (sign "\x7b") (.rule .block) (.rule .assignment)]

/-! ## Literals -/

/-- The key of a property or the name of a member. -/
def propertyName : Form :=
  .first [anyName, privateName, .token .string, .token .number,
    .node .other (.seq [sign "[", .rule .expression, sign "]"])]

/-- An object, with properties, methods and spreads. -/
def objectLiteral : Form :=
  braced (loose (.first [
    .seq [sign "...", .rule .assignment],
    .seq [.many (methodWord ["get", "set", "async"]), opt (sign "*"), .rule .propertyName,
      signature, .rule .block],
    .seq [.rule .propertyName, sign ":", .rule .assignment],
    .seq [name, initial]]))

/-- Expressions and spreads with commas between them. -/
def items : Form := loose (.seq [opt (sign "..."), .rule .assignment])

/-- An array. -/
def arrayLiteral : Form := .seq [sign "[", items, sign "]"]

/-- The arguments of a call. -/
def arguments : Form := bracketed items

/-- A template whose inserted parts have a given form. -/
def templateOf (inserted : Form) : Form :=
  .seq [sign "\x60",
    .many (.first [.token .templateText,
      .seq [.token (.raw ['$', '\x7b']), inserted, sign "\x7d"]]),
    .token (.raw ['\x60'])]

/-- A template with expressions inserted. -/
def template : Form := templateOf (.rule .expression)

/-! ## Markup -/

/-- The name in a tag. -/
def tagName : Form :=
  .seq [.token .markupName, .many (.seq [.first [sign ".", sign ":"], .token .markupName])]

/-- An attribute in a tag. -/
def markupAttribute : Form :=
  .first [
    braced (.seq [sign "...", .rule .assignment]),
    .seq [.token .markupName, opt (.seq [sign ":", .token .markupName]),
      opt (.seq [sign "=",
        .first [.token .markupString, braced (.rule .expression), .rule .element]])]]

/-- What stands between an opening and a closing tag. -/
def markupChildren : Form :=
  .many (.first [.token .markupText,
    braced (opt (.seq [opt (sign "..."), .rule .expression])),
    .rule .element])

/-- A markup element. -/
def element : Form :=
  let body := Form.seq [sign ">", markupChildren, sign "<", sign "/", opt tagName, sign ">"]
  .seq [sign "<", .first [body,
    .seq [tagName, ifTyped (opt (.rule .typeArguments)), .many (.rule .markupAttribute),
      .first [.seq [sign "/", sign ">"], body]]]]

/-! ## Operands -/

/-- What stands at the front of an operand that is not a plain name. -/
def literal : Form :=
  .first [
    words ["this", "super", "null", "true", "false"],
    .token .string, .token .number, .rule .template,
    .seq [sign "(", .rule .expression, typeMark, sign ")"],
    .rule .objectLiteral, .rule .arrayLiteral,
    functionExpression, .rule .classRest,
    .seq [word "new", sign ".", word "target"],
    .seq [word "import", .first [.rule .arguments, .seq [sign ".", word "meta"]]],
    .token .regex,
    .ifAllowed .markup (.rule .element) never]

/-- An operand without the signs in front of it and behind it. -/
def primary : Form :=
  .ifAhead name
    (.first [.seq [word "async", sameLine, functionExpression], name])
    literal

/-- What may stand in front of an operand. -/
def unary : Form :=
  .first [
    operator ["!", "~", "+", "-", "++", "--"],
    words ["typeof", "void", "delete"],
    .seq [word "new", notAhead (sign ".")],
    .seq [word "await", .token .operandAhead],
    .ifAllowed .markup never
      (onlyTyped (.seq [sign "<", .first [word "const", .rule .type], sign ">"]))]

/-- What may follow type arguments in an expression. -/
def afterTypeArguments : Form :=
  .first ((["(", "\x60", ")", "]", ":", ";", ",", ".", "?", "\x7d"].map sign) ++
    [.token .lineEnd, .token .finish])

/-- What may stand behind an operand. -/
def postfixOf : Form :=
  .first [
    .seq [signNotBefore "." ['.'], memberName],
    .rule .arguments,
    .seq [sign "[", .rule .expression, sign "]"],
    .seq [operator ["?."], .first [memberName, .seq [sign "[", .rule .expression, sign "]"],
      .seq [ifTyped (opt (.rule .typeArguments)), .rule .arguments], .rule .template]],
    .rule .template,
    .seq [sameLine, operator ["++", "--"]],
    onlyTyped (.seq [sameLine, operator ["!"]]),
    onlyTyped (.seq [.rule .typeArguments, ahead afterTypeArguments])]

/-- **The test `#x in e`**, the only place where a private name stands by itself. -/
def brandCheck : Form :=
  .node .brandCheck
    (.seq [.field .left privateName, word "in", .field .right (.node .other (.rule .operand))])

/-- An operand with all that stands in front of it and behind it. -/
def operand : Form :=
  .seq [.many unary,
    .ifAhead privateName brandCheck (.seq [.rule .primary, .many postfixOf])]

/-! ## Chains -/

/-- Operators that give a new value to what is on their left. -/
def assigning : List String :=
  ["=", "+=", "-=", "*=", "/=", "%=", "**=", "<<=", ">>=", ">>>=", "&=", "|=", "^=", "&&=", "||=",
    "??="]

/-- Operators between two operands. -/
def joining : List String :=
  ["+", "-", "*", "/", "%", "**", "<<", ">>", ">>>", "<", ">", "<=", ">=", "==", "!=", "===", "!==",
    "&", "|", "^", "&&", "||", "??"]

/-- An operator and what stands on its right. -/
def link : Form :=
  .first [
    .seq [operator joining, .rule .operand],
    .seq [operator assigning, .rule .assignment],
    .seq [operator ["?"], .rule .assignment, sign ":", .rule .assignment],
    .seq [words ["in", "instanceof"], .rule .operand],
    onlyTyped (.seq [sameLine, words ["as", "satisfies"],
      .first [word "const", .rule .type]])]

/-- Operands with operators between them. -/
def chain : Form :=
  .seq [
    .first [
      .seq [word "yield", opt (.seq [sameLine, opt (sign "*"), .token .operandAhead,
        .rule .assignment])],
      .rule .operand],
    .many link]

/-- An expression without commas.  In typed dialects a colon may belong to an arrow function or to a
condition around it, so the choice for an arrow function may be taken back. -/
def assignment : Form :=
  .ifAhead (.rule .arrowHead)
    (.ifAllowed .types (.either arrowFunction (.rule .chain)) arrowFunction)
    (.rule .chain)

/-- An expression. -/
def expression : Form := separated (.rule .assignment) comma

end Sigil.Script.Grammar
