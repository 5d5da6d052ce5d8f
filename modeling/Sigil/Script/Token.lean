import Sigil.Script.Cursor

/-!
# Script/Token — the smallest parts of a script

What counts as a token depends on what the grammar expects at a place: a slash divides where an
operator may stand and opens a regular expression where an operand may stand.  So tokens are not cut
off in advance.  A `Token` is a question to a cursor, and `Token.scan` answers it with the number of
characters the token takes.
-/

namespace Sigil.Script

/-- What the grammar can ask for at a cursor. -/
inductive Token where
  /-- A sign, not followed by any of the characters `notBefore`. -/
  | sign (text : Text) (notBefore : List Char)
  /-- The operator that is written longest here, if it is one of the list. -/
  | operator (which : List String)
  /-- A word that stands alone. -/
  | word (text : Text)
  /-- A name that is not a reserved word. -/
  | name
  /-- Any name, reserved words included. -/
  | anyName
  /-- A private name, with its `#`. -/
  | privateName
  /-- A number. -/
  | number
  /-- A quoted string on one line. -/
  | string
  /-- A regular expression with its flags. -/
  | regex
  /-- Characters that stand right behind the last token. -/
  | raw (text : Text)
  /-- A stretch of template text. -/
  | templateText
  /-- A stretch of text between markup tags. -/
  | markupText
  /-- A name in a markup tag, which may have dashes. -/
  | markupName
  /-- A quoted markup attribute, which may span lines. -/
  | markupString
  /-- A first line that starts with `#!`. -/
  | hashBang
  /-- A comment up to the end of the line, opened by `<!--` or `-->`. -/
  | arrowComment
  /-- Nothing, where a line has just ended. -/
  | lineEnd
  /-- Nothing, where no line has just ended. -/
  | sameLine
  /-- Nothing, where an operand can start. -/
  | operandAhead
  /-- Nothing, where a line end closes the statement. -/
  | impliedSemicolon
  /-- Nothing, at the end of the text. -/
  | finish
deriving Repr

/-! ## Names -/

/-- Words that are never plain names. -/
def reserved : List String :=
  ["break", "case", "catch", "class", "const", "continue", "debugger", "default", "delete", "do",
    "else", "export", "extends", "false", "finally", "for", "function", "if", "import", "in",
    "instanceof", "new", "null", "return", "super", "switch", "this", "throw", "true", "try",
    "typeof", "var", "void", "while", "with"]

/-- The length of the `\u` escape at the front of a text; `0` if there is none. -/
def escapeLength : Text → Nat
  | '\\' :: 'u' :: '\x7b' :: rest =>
    match rest.span isHexDigit with
    | (digits@(_ :: _), '\x7d' :: _) => digits.length + 4
    | _ => 0
  | '\\' :: 'u' :: a :: b :: c :: d :: _ => if [a, b, c, d].all isHexDigit then 6 else 0
  | _ => 0

/-- The number of characters in the run of name characters and escapes at the front, of which the
first `inside` characters are the rest of an escape. -/
def nameRun (inside : Nat) : Text → Nat
  | [] => 0
  | c :: rest =>
    match inside with
    | n + 1 => nameRun n rest + 1
    | 0 =>
      if isNamePart c then nameRun 0 rest + 1
      else
        match escapeLength (c :: rest) with
        | 0 => 0
        | n + 1 => nameRun n rest + 1

/-- The length of the name at the front of a text; `0` if there is none. -/
def nameLength (text : Text) : Nat :=
  match text with
  | [] => 0
  | c :: _ => if c.isDigit then 0 else nameRun 0 text

/-! ## Numbers -/

/-- Runs of digits, with `_` between them. -/
def digitRun (isDigit : Char → Bool) (text : Text) : Nat :=
  (text.takeWhile fun c => isDigit c || c = '_').length

/-- The length of an exponent at the front of a text; `0` if there is none. -/
def exponentLength : Text → Nat
  | e :: rest =>
    if e = 'e' || e = 'E' then
      let (sign, digits) := match rest with
        | s :: more => if s = '+' || s = '-' then (1, more) else (0, rest)
        | [] => (0, [])
      let n := digitRun Char.isDigit digits
      if n = 0 then 0 else 1 + sign + n
    else 0
  | [] => 0

/-- The length of a decimal number at the front of a text; `0` if there is none. -/
def decimalLength (text : Text) : Nat :=
  let whole := digitRun Char.isDigit text
  match text.drop whole with
  | '.' :: rest =>
    let places := digitRun Char.isDigit rest
    if whole = 0 && places = 0 then 0
    else whole + 1 + places + exponentLength (rest.drop places)
  | 'n' :: _ => if whole = 0 then 0 else whole + 1
  | rest => if whole = 0 then 0 else whole + exponentLength rest

/-- The length of a number in a base given by a letter; `0` if there are no digits. -/
def basedLength (isDigit : Char → Bool) (rest : Text) : Nat :=
  let n := digitRun isDigit rest
  if n = 0 then 0
  else
    match rest.drop n with
    | 'n' :: _ => n + 3
    | _ => n + 2

/-- The length of the number at the front of a text; `0` if there is none. -/
def numberLength : Text → Nat
  | text@('0' :: x :: rest) =>
    if x = 'x' || x = 'X' then basedLength isHexDigit rest
    else if x = 'o' || x = 'O' then basedLength (fun c => '0' ≤ c && c ≤ '7') rest
    else if x = 'b' || x = 'B' then basedLength (fun c => c = '0' || c = '1') rest
    else decimalLength text
  | text@(c :: _) => if c.isDigit || c = '.' then decimalLength text else 0
  | [] => 0

/-! ## Quoted text -/

/-- The length of a string up to and with its closing quote, of which `n` characters are read. -/
def closeString (quote : Char) (n : Nat) : Text → Nat
  | '\\' :: '\r' :: '\n' :: rest => closeString quote (n + 3) rest
  | '\\' :: _ :: rest => closeString quote (n + 2) rest
  | c :: rest =>
    if c = quote then n + 1
    else if c = '\n' || c = '\r' then 0
    else closeString quote (n + 1) rest
  | [] => 0

/-- The length of the string at the front of a text; `0` if there is none. -/
def stringLength : Text → Nat
  | c :: rest => if c = '"' || c = '\x27' then closeString c 1 rest else 0
  | [] => 0

/-- The length of a regular expression up to and with its closing slash. -/
def closeRegex (inClass : Bool) (n : Nat) : Text → Nat
  | '\\' :: c :: rest => if isLineEnd c then 0 else closeRegex inClass (n + 2) rest
  | c :: rest =>
    if isLineEnd c then 0
    else if c = '/' && !inClass then n + 1
    else closeRegex (if c = '[' then true else if c = ']' then false else inClass) (n + 1) rest
  | [] => 0

/-- The length of the regular expression at the front of a text, flags included; `0` for none. -/
def regexLength : Text → Nat
  | '/' :: rest =>
    let n := closeRegex false 1 rest
    if n ≤ 2 then 0
    else n + ((('/' :: rest).drop n).takeWhile fun c => c.isAlpha).length
  | _ => 0

/-- The number of template characters in front of a closing mark or an inserted expression. -/
def templateRun (n : Nat) : Text → Nat
  | '\\' :: _ :: rest => templateRun (n + 2) rest
  | '\x60' :: _ => n
  | '$' :: '\x7b' :: _ => n
  | _ :: rest => templateRun (n + 1) rest
  | [] => n

/-- The length of a quoted markup attribute; `0` if there is none. -/
def markupStringLength : Text → Nat
  | c :: rest =>
    if c = '"' || c = '\x27' then
      let n := (rest.takeWhile (· ≠ c)).length
      if n = rest.length then 0 else n + 2
    else 0
  | [] => 0

/-! ## Operators -/

/-- Every sign that can start where an operator is expected, longest first. -/
def operatorSigns : List String :=
  [">>>=", "...", "===", "!==", "**=", "<<=", ">>=", ">>>", "&&=", "||=", "??=", "=>", "==", "!=",
    "<=", ">=", "&&", "||", "??", "?.", "++", "--", "+=", "-=", "*=", "/=", "%=", "&=", "|=", "^=",
    "<<", ">>", "**", "=", "+", "-", "*", "/", "%", "<", ">", "&", "|", "^", "!", "~", "?"]

/-- The text behind a given front, if the front is there. -/
def dropFront? : Text → Text → Option Text
  | [], text => some text
  | a :: front, b :: text => if a = b then dropFront? front text else none
  | _ :: _, [] => none

/-- The operator that is written longest at the front of a text.  A question mark and a point in
front of a digit are a question mark and a number. -/
def longestOperator? (text : Text) : Option String :=
  match operatorSigns.find? fun o => (dropFront? o.toList text).isSome with
  | some "?." =>
    match text with
    | _ :: _ :: c :: _ => if c.isDigit then some "?" else some "?."
    | _ => some "?."
  | found => found

/-! ## Line ends that close statements -/

/-- A statement goes on after a line end in front of these. -/
def goesOn : Text → Bool
  | [] => false
  | '.' :: c :: _ => !c.isDigit
  | '+' :: c :: _ => c ≠ '+'
  | '-' :: c :: _ => c ≠ '-'
  | '!' :: c :: _ => c = '='
  | text@(c :: _) =>
    ['\x60', ',', ':', ';', '*', '%', '>', '<', '=', '[', '(', '?', '^', '|', '&', '/', '.', '+',
      '-'].contains c ||
    text.take (nameLength text) = "in".toList || text.take (nameLength text) = "instanceof".toList

/-- A text in front of which an operand can start. -/
def startsOperand : Text → Bool
  | [] => false
  | '.' :: c :: _ => c.isDigit
  | text@(c :: _) =>
    ['(', '[', '\x7b', '\x60', '"', '\x27', '/', '#', '+', '-', '!', '~', '<', '@'].contains c ||
    c.isDigit ||
    (nameLength text ≠ 0 && text.take (nameLength text) ≠ "in".toList &&
      text.take (nameLength text) ≠ "of".toList &&
      text.take (nameLength text) ≠ "instanceof".toList)

/-! ## Scanning -/

/-- What a token found: the gap it skipped, if any, and the number of characters it takes. -/
structure Match where
  /-- Whether the gap in front belongs to what is passed over. -/
  overGap : Bool
  /-- The characters taken. -/
  length : Nat

/-- A match behind the gap, unless it is empty. -/
def Match.nonempty? (n : Nat) : Option Match := if n = 0 then none else some ⟨true, n⟩

/-- An empty match that leaves the gap, where a condition holds. -/
def Match.where? (b : Bool) : Option Match := if b then some ⟨false, 0⟩ else none

/-- Answers a token's question at a cursor. -/
def Token.scan (c : Cursor) : Token → Option Match
  | .sign text notBefore =>
    match dropFront? text c.ahead with
    | none => none
    | some [] => some ⟨true, text.length⟩
    | some (d :: _) => if notBefore.contains d then none else some ⟨true, text.length⟩
  | .operator which =>
    match longestOperator? c.ahead with
    | some o => if which.contains o then some ⟨true, o.length⟩ else none
    | none => none
  | .word text =>
    if text.length = nameLength c.ahead && (dropFront? text c.ahead).isSome then
      some ⟨true, text.length⟩
    else none
  | .name =>
    let n := nameLength c.ahead
    if n = 0 || reserved.contains (String.ofList (c.ahead.take n)) then none else some ⟨true, n⟩
  | .anyName => Match.nonempty? (nameLength c.ahead)
  | .privateName =>
    match c.ahead with
    | '#' :: rest =>
      let n := nameLength rest
      if n = 0 then none else some ⟨true, n + 1⟩
    | _ => none
  | .number => Match.nonempty? (numberLength c.ahead)
  | .string => Match.nonempty? (stringLength c.ahead)
  | .regex => Match.nonempty? (regexLength c.ahead)
  | .raw text => if (dropFront? text c.rest).isSome then some ⟨false, text.length⟩ else none
  | .templateText =>
    let n := templateRun 0 c.rest
    if n = 0 then none else some ⟨false, n⟩
  | .markupText =>
    let n := (c.rest.takeWhile fun d => d ∉ ['<', '>', '\x7b', '\x7d']).length
    if n = 0 then none else some ⟨false, n⟩
  | .markupName =>
    match c.ahead with
    | [] => none
    | d :: _ =>
      if isNameStart d then
        Match.nonempty? (c.ahead.takeWhile fun e => isNamePart e || e = '-').length
      else none
  | .markupString => Match.nonempty? (markupStringLength c.ahead)
  | .hashBang =>
    match c.offset, c.rest with
    | 0, '#' :: '!' :: rest =>
      some ⟨false, 2 + (rest.takeWhile fun d => !isLineEnd d).length⟩
    | _, _ => none
  | .arrowComment =>
    if (dropFront? "<!--".toList c.ahead).isSome || (dropFront? "-->".toList c.ahead).isSome then
      some ⟨true, (c.ahead.takeWhile fun d => !isLineEnd d).length⟩
    else none
  | .lineEnd => Match.where? c.gap.newline
  | .sameLine => Match.where? !c.gap.newline
  | .operandAhead => Match.where? (startsOperand c.ahead)
  | .impliedSemicolon =>
    Match.where? <|
      match c.ahead with
      | [] => true
      | d :: _ => d = '\x7d' || (c.gap.newline && !goesOn c.ahead)
  | .finish => Match.where? c.ahead.isEmpty

end Sigil.Script
