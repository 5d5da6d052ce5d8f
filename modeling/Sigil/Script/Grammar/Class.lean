import Sigil.Script.Grammar.Types

/-!
# Script/Grammar/Class — classes, their members and decorators

A class becomes a node over its decorators, its heritage and its body.  Each method, field or
signature in the body becomes a `member` node whose `name` field is the private name it declares.
Static blocks and index signatures declare nothing.
-/

namespace Sigil.Script.Grammar

open Form

/-- A decorator. -/
def decorator : Form :=
  .seq [sign "@", .first [
    .seq [name, .many (.seq [signNotBefore "." ['.'], memberName]),
      ifTyped (opt (.seq [.rule .typeArguments, ahead (sign "(")])), opt (.rule .arguments)],
    bracketed (.rule .expression)]]

/-- The end of a member without a body. -/
def memberEnd : Form := .first [sign ";", onlyTyped comma, .token .impliedSemicolon]

/-- The words that may stand in front of the name of any member. -/
def memberWords : Form :=
  .many (.first [methodWord ["static", "accessor"],
    onlyTyped (methodWord ["public", "private", "protected", "readonly", "abstract", "override",
      "declare"])])

/-- What stands in front of the name of a method of a special kind. -/
def methodFront : Form :=
  .first [.seq [many1 (methodWord ["async", "get", "set"]), opt (sign "*")], sign "*"]

/-- What follows the name of a method. -/
def methodPart : Form :=
  .seq [ifTyped (opt (sign "?")), signature, .first [.rule .block, onlyTyped memberEnd]]

/-- What follows the name of a field. -/
def fieldPart : Form :=
  .seq [ifTyped (opt (.first [sign "?", sign "!"])), typeMark, initial, memberEnd]

/-- A method or a field from its name on, or from the words that only methods have. -/
def memberPart : Form :=
  let memberName := Form.field .name (.rule .propertyName)
  .first [
    .seq [methodFront, memberName, methodPart],
    .seq [memberName, .first [methodPart, fieldPart]]]

/-- One thing that stands in the body of a class. -/
def classItem : Form :=
  .first [
    sign ";",
    .token .arrowComment,
    .seq [word "static", .rule .block],
    onlyTyped (.seq [memberWords, opt (word "readonly"), indexSignature, memberEnd]),
    .node .member (.seq [.many (.rule .decorator), memberWords, .rule .memberPart])]

/-- The body of a class. -/
def classBody : Form := braced (.many classItem)

/-- What a class extends and implements. -/
def heritage : Form :=
  let parent := Form.seq [.rule .operand, opt (.rule .typeArguments)]
  .seq [
    opt (.seq [word "extends", .ifAllowed .types (separated parent comma) (.rule .chain)]),
    ifTyped (opt (.seq [word "implements", separated (.rule .type) comma]))]

/-- **A class**, with the decorators in front of it. -/
def classRest : Form :=
  .node .classDef
    (.seq [.many (.rule .decorator), ifTyped (opt (word "abstract")), word "class",
      opt (.seq [notAhead (onlyTyped (word "implements")), name]),
      ifTyped (opt (.rule .typeParameters)), heritage,
      .field .body (.node .other (.rule .classBody))])

end Sigil.Script.Grammar
