import Sigil.Script.Grammar.Class

/-!
# Script/Grammar/Statement — statements, declarations and whole scripts

The first words of a statement decide which kind it is, so no statement is read twice.
-/

namespace Sigil.Script.Grammar

open Form

/-- The end of a statement, written or implied. -/
def semicolon : Form := .first [sign ";", .token .impliedSemicolon]

/-- Statements between braces. -/
def block : Form := braced (.many (.rule .statement))

/-! ## Variables and loops -/

/-- The words that declare variables. -/
def variableWord : Form :=
  .first [words ["var", "let", "const"], .seq [opt (word "await"), word "using", sameLine]]

/-- Variables and their initial values. -/
def declarators : Form :=
  separated (.seq [.rule .pattern, ifTyped (opt (sign "!")), typeMark, initial]) comma

/-- A declaration of variables. -/
def bindings : Form := .seq [variableWord, declarators, .rule .semicolon]

/-- Nothing, where variables are declared. -/
def variablesAhead : Form :=
  .first [words ["var", "const"], .seq [word "let", .first [name, sign "\x7b", sign "["]],
    .seq [opt (word "await"), word "using", sameLine, name]]

/-- What stands between the brackets of a `for`. -/
def forHead : Form :=
  .first [
    .seq [.first [.seq [variableWord, .rule .pattern], .rule .operand], words ["of", "in"],
      .rule .expression, ahead (sign ")")],
    .seq [opt (.first [.seq [variableWord, declarators], .rule .expression]), sign ";",
      opt (.rule .expression), sign ";", opt (.rule .expression)]]

/-! ## Modules -/

/-- The name of something in another module. -/
def moduleName : Form := .first [anyName, .token .string]

/-- A name and the name it goes by here. -/
def renamed : Form :=
  .seq [ifTyped (opt (.seq [word "type", ahead moduleName, notAhead (word "as")])), moduleName,
    opt (.seq [word "as", moduleName])]

/-- Names between braces. -/
def renamedNames : Form := braced (listed renamed)

/-- What is said about a module besides its name. -/
def moduleAttributes : Form := opt (.seq [words ["with", "assert"], .rule .objectLiteral])

/-- Where names come from. -/
def fromModule : Form := .seq [word "from", .token .string, moduleAttributes]

/-- What follows the word `import`. -/
def importRest : Form :=
  let others := Form.first [.seq [sign "*", word "as", name], renamedNames]
  let clause := Form.first [.seq [name, opt (.seq [comma, others])], others]
  .seq [
    .first [
      .seq [.token .string, moduleAttributes],
      .seq [ifTyped (opt (.seq [words ["type", "typeof"],
          ahead (.first [name, sign "\x7b", sign "*"]), notAhead (word "from")])),
        clause,
        .first [fromModule,
          onlyTyped (.seq [equals, .first [
            .seq [word "require", bracketed (.token .string)], .rule .entityName]])]]],
    .rule .semicolon]

/-- A function declaration. -/
def functionDeclaration : Form :=
  .seq [opt (word "async"), word "function", opt (sign "*"), opt name, signature,
    .first [.rule .block, onlyTyped (.rule .semicolon)]]

/-- Nothing, where a function is declared. -/
def functionAhead : Form :=
  .first [word "function", .seq [word "async", sameLine, word "function"]]

/-- Nothing, where a class is declared. -/
def classAhead : Form :=
  .first [word "class", sign "@", onlyTyped (.seq [word "abstract", word "class"])]

/-- Nothing, where a type, an enumeration or a namespace is declared. -/
def typedAhead : Form :=
  onlyTyped (.first [
    .seq [word "type", sameLine, name, .first [sign "=", sign "<"]],
    .seq [word "interface", sameLine, anyName],
    .seq [opt (word "const"), word "enum", name],
    .seq [words ["namespace", "module"], sameLine, .first [name, .token .string]],
    .seq [word "declare", sameLine, anyName],
    .seq [word "global", sign "\x7b"]])

/-- What follows the word `export`. -/
def exportRest : Form :=
  .first [
    .seq [ifTyped (opt (word "type")), sign "*", opt (.seq [word "as", moduleName]), fromModule,
      .rule .semicolon],
    .seq [ifTyped (opt (word "type")), renamedNames, opt fromModule, .rule .semicolon],
    .seq [word "default",
      .ifAhead functionAhead functionDeclaration <|
      .ifAhead classAhead (.rule .classRest) <|
      .ifAhead typedAhead (.rule .typedDeclaration) <|
      .seq [.rule .expression, .rule .semicolon]],
    onlyTyped (.seq [sign "=", .rule .expression, .rule .semicolon]),
    onlyTyped (.seq [word "as", word "namespace", name, .rule .semicolon]),
    .seq [ahead (.first [variablesAhead, functionAhead, classAhead, typedAhead,
      onlyTyped (word "import")]), .rule .statement]]

/-! ## Types and namespaces -/

/-- A declaration that only typed dialects have. -/
def typedDeclaration : Form :=
  .first [
    .seq [word "type", name, opt (.rule .typeParameters), sign "=", .rule .type, .rule .semicolon],
    .seq [word "interface", name, opt (.rule .typeParameters),
      opt (.seq [word "extends", separated (.rule .type) comma]), .rule .objectType],
    .seq [opt (word "const"), word "enum", name,
      braced (listed (.seq [.rule .propertyName, initial]))],
    .seq [words ["namespace", "module"], .first [.token .string, .rule .entityName],
      .first [.rule .block, .rule .semicolon]],
    .seq [word "declare", .rule .statement],
    .seq [word "global", .rule .block]]

/-! ## Statements -/

/-- The first of several forms whose test succeeds. -/
def byFront (cases : List (Form × Form)) (otherwise : Form) : Form :=
  cases.foldr (fun c rest => .ifAhead c.1 c.2 rest) otherwise

/-- What leaves a function, with a value if there is one. -/
def leaving : Form :=
  .seq [words ["return", "throw"],
    opt (.seq [notAhead (.token .impliedSemicolon), .rule .expression]), .rule .semicolon]

/-- The cases of a `switch`. -/
def switchCases : Form :=
  .many (.seq [.first [.seq [word "case", .rule .expression], word "default"], sign ":",
    .many (.rule .statement)])

/-- What to do when a block fails, and afterwards. -/
def handlers : Form :=
  .seq [
    opt (.seq [word "catch", opt (bracketed (.seq [.rule .pattern, typeMark])), .rule .block]),
    opt (.seq [word "finally", .rule .block])]

/-- A statement.  A comment that only opens where a statement can stand counts as one. -/
def statement : Form :=
  let condition := bracketed (.rule .expression)
  byFront [
    (.token .arrowComment, .token .arrowComment),
    (sign "\x7b", .rule .block),
    (sign ";", sign ";"),
    (words ["return", "throw"], leaving),
    (word "if", .seq [word "if", condition, .rule .statement,
      opt (.seq [word "else", .rule .statement])]),
    (typedAhead, .rule .typedDeclaration),
    (variablesAhead, .rule .bindings),
    (functionAhead, functionDeclaration),
    (classAhead, .first [.rule .classRest,
      .seq [many1 (.rule .decorator), word "export", .rule .exportRest]]),
    (word "for", .seq [word "for", opt (word "await"), bracketed (.rule .forHead),
      .rule .statement]),
    (word "while", .seq [word "while", condition, .rule .statement]),
    (word "do", .seq [word "do", .rule .statement, word "while", condition, opt (sign ";")]),
    (word "switch", .seq [word "switch", condition, braced switchCases]),
    (word "try", .seq [word "try", .rule .block, handlers]),
    (words ["break", "continue"], .seq [words ["break", "continue"], opt (.seq [sameLine, name]),
      .rule .semicolon]),
    (word "debugger", .seq [word "debugger", .rule .semicolon]),
    (word "with", .seq [word "with", condition, .rule .statement]),
    (.seq [word "import", notAhead (.first [sign "(", sign "."])],
      .seq [word "import", .rule .importRest]),
    (word "export", .seq [word "export", .rule .exportRest]),
    (.seq [name, sign ":"], .seq [name, sign ":", .rule .statement])]
    (.seq [.rule .expression, .rule .semicolon])

/-- A whole script. -/
def script : Form :=
  .seq [opt (.token .hashBang), .many (.rule .statement), .token .finish]

end Sigil.Script.Grammar
