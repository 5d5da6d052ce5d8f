import Sigil.Command.Request

/-!
# Command/Arguments — one way to read the words of a command line

A word that starts with a dash and is longer than that is an option, and everything after `--` is
plain.  A setting takes the text behind its equals sign as its value, or else the next word,
whatever that looks like.  A switch takes no value.
-/

namespace Sigil.Command

/-- An option with a value. -/
inductive Setting where
  /-- Where the script goes. -/
  | output
  /-- Where the source map comes from. -/
  | sourceMap
  /-- Where the source map goes. -/
  | mapOutput
  /-- The dialect. -/
  | language
  /-- Where the events go. -/
  | telemetryDir
deriving DecidableEq, Repr

/-- An option without a value. -/
inductive Switch where
  /-- Explain the command. -/
  | help
  /-- Refuse broken scripts. -/
  | strict
  /-- Take broken scripts. -/
  | lenient
deriving DecidableEq, Repr

/-- What a word, or two of them, stand for. -/
inductive Argument where
  /-- A plain argument. -/
  | plain (t : Text)
  /-- A setting and its value. -/
  | setting (s : Setting) (value : Text)
  /-- A switch. -/
  | switch (s : Switch)
deriving DecidableEq, Repr

/-- The options that a command knows, by their words. -/
structure Options where
  /-- The options with a value. -/
  settings : List (Text × Setting) := []
  /-- The options without a value. -/
  switches : List (Text × Switch)

/-- The word that asks for help. -/
def helpWord : Text := "--help".toList

/-- The options of a command that has no option of its own. -/
def Options.plain : Options where
  switches := [(helpWord, .help)]

/-- The options of a conversion. -/
def Options.convert : Options where
  settings := [
    ("--output".toList, .output), ("--source-map".toList, .sourceMap),
    ("--map-output".toList, .mapOutput), ("--language".toList, .language),
    ("--telemetry-dir".toList, .telemetryDir)]
  switches := [(helpWord, .help), ("--strict".toList, .strict), ("--no-strict".toList, .lenient)]

/-- The word after which all words are plain. -/
def divider : Text := ['-', '-']

/-- The word is written like an option. -/
def isOption : Text → Bool
  | '-' :: _ :: _ => true
  | _ => false

/-- The name of an option and the value behind its equals sign. -/
def splitOption (word : Text) : Text × Option Text :=
  match word.dropWhile (· ≠ '=') with
  | [] => (word, none)
  | _ :: value => (word.takeWhile (· ≠ '='), some value)

/-- **Reads words as arguments**; nothing if an option is unknown, lacks its value or has one that
it does not take. -/
def arguments (known : Options) : List Text → Option (List Argument)
  | [] => some []
  | word :: rest =>
    if word = divider then some (rest.map .plain)
    else if isOption word then
      let (name, value?) := splitOption word
      match known.settings.lookup name, known.switches.lookup name, value? with
      | some s, _, some value => (arguments known rest).map (.setting s value :: ·)
      | some s, _, none =>
        match rest with
        | value :: after => (arguments known after).map (.setting s value :: ·)
        | [] => none
      | none, some s, none => (arguments known rest).map (.switch s :: ·)
      | none, _, _ => none
    else (arguments known rest).map (.plain word :: ·)

/-- The plain arguments. -/
def plains (as : List Argument) : List Text :=
  as.filterMap fun
    | .plain t => some t
    | _ => none

/-- The value of a setting; the last one counts. -/
def valueOf? (as : List Argument) (s : Setting) : Option Text :=
  (as.filterMap fun
    | .setting k value => if k = s then some value else none
    | _ => none).getLast?

/-- Broken scripts are to be refused; the last switch counts. -/
def wantsStrict (as : List Argument) : Bool :=
  (as.filterMap fun
    | .switch .strict => some true
    | .switch .lenient => some false
    | _ => none).getLast?.getD false

/-- Help is asked for. -/
def wantsHelp (as : List Argument) : Bool := as.contains (.switch .help)

/-- What arguments of a conversion say. -/
def Line.ofConversion (as : List Argument) : Line :=
  if wantsHelp as then .help
  else
    match plains as with
    | [input] => .convert {
        input := input
        output := valueOf? as .output
        sourceMap := valueOf? as .sourceMap
        mapOutput := valueOf? as .mapOutput
        language := valueOf? as .language
        strict := wantsStrict as
        telemetryDir := valueOf? as .telemetryDir }
    | _ => .misused

/-- What arguments of the list of transforms say. -/
def Line.ofTransforms (as : List Argument) : Line :=
  if wantsHelp as then .help
  else if (plains as).isEmpty then .transforms
  else .misused

/-- What comes first on a command line: whether help is asked for, and the words from the command
on. -/
def leading : List Text → Option (Bool × List Text)
  | [] => some (false, [])
  | word :: rest =>
    if word = divider then some (false, rest)
    else if isOption word then
      if word = helpWord then (leading rest).map fun r => (true, r.2) else none
    else some (false, word :: rest)

/-- **Reads the words of a command line.** -/
def Line.ofWords (words : List Text) : Line :=
  match leading words with
  | none => .misused
  | some (true, _) => .help
  | some (false, []) => .misused
  | some (false, command :: rest) =>
    if command = "convert".toList then
      ((arguments .convert rest).map ofConversion).getD .misused
    else if command = "transforms".toList then
      ((arguments .plain rest).map ofTransforms).getD .misused
    else .misused

end Sigil.Command
