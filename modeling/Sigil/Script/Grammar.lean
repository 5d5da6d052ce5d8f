import Sigil.Script.Grammar.Statement

/-!
# Script/Grammar — the form of every rule

One grammar serves all dialects; forms ask for a dialect's features where they need them.
-/

namespace Sigil.Script

open Grammar in
/-- The form of a rule. -/
def grammar : Rule → Form
  | .statement => statement
  | .block => block
  | .semicolon => semicolon
  | .bindings => bindings
  | .classRest => classRest
  | .classBody => classBody
  | .importRest => importRest
  | .exportRest => exportRest
  | .forHead => forHead
  | .typedDeclaration => typedDeclaration
  | .expression => expression
  | .assignment => assignment
  | .chain => chain
  | .operand => operand
  | .primary => primary
  | .arguments => arguments
  | .template => template
  | .arrowHead => arrowHead
  | .objectLiteral => objectLiteral
  | .arrayLiteral => arrayLiteral
  | .propertyName => propertyName
  | .decorator => decorator
  | .memberPart => memberPart
  | .parameters => parameters
  | .pattern => pattern
  | .element => element
  | .markupAttribute => markupAttribute
  | .type => type
  | .unionType => unionType
  | .unaryType => unaryType
  | .primaryType => primaryType
  | .typeArguments => typeArguments
  | .typeParameters => typeParameters
  | .colonType => colonType
  | .objectType => objectType
  | .entityName => entityName

end Sigil.Script
