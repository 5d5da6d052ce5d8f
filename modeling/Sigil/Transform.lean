import Sigil.Convert
import Sigil.Json.Display

/-!
# Transform — named transforms and running one of them

A registry lists transforms under keys, in the order in which the keys were first registered; a
later transform under a key takes the place of the earlier.  Running a transform gives a conversion
and a line that describes it.
-/

namespace Sigil

/-- A name that is no dialect. -/
structure UnknownLanguage where
  /-- What was given. -/
  given : Json
deriving Repr

/-- The wording of an unknown dialect. -/
def UnknownLanguage.message (e : UnknownLanguage) : String :=
  e.given.literal ++ " is not a valid ScriptLanguage"

/-- The dialect that a value names. -/
def Language.ofJson : Json → Except UnknownLanguage Language
  | .str s =>
    match ofLabel? s with
    | some l => .ok l
    | none => .error ⟨.str s⟩
  | v => .error ⟨v⟩

namespace Transform

/-- What a transform does. -/
inductive Action where
  /-- Rewrites private names as properties. -/
  | privateToProperty
  /-- Puts a label in front of the script. -/
  | label (text : String)
  /-- Nothing is said of what it does. -/
  | blank
deriving DecidableEq, Repr

/-- Transforms under their keys, in order of registration. -/
abbrev Registry := List (Json × Action)

/-- The key of the transform that is always there. -/
def privateToPropertyKey : Json := .str "private_to_property"

/-- The registry at the start. -/
def Registry.initial : Registry := [(privateToPropertyKey, .privateToProperty)]

/-- Registers a transform. -/
def Registry.register (key : Json) (action : Action) : Registry → Registry
  | [] => [(key, action)]
  | (k, a) :: rest =>
    if k.same key then (k, action) :: rest else (k, a) :: register key action rest

/-- The keys in order of registration. -/
def Registry.keys (r : Registry) : List Json := r.map (·.1)

/-- Why a transform could not be run. -/
inductive Error where
  /-- No transform is registered under the key. -/
  | unknownKey (key : Json)
  /-- The parameters name no dialect. -/
  | unknownLanguage (e : UnknownLanguage)
  /-- The script could not be rewritten. -/
  | convert (e : ConvertError)
  /-- The transform does not say what it does. -/
  | unspecified
deriving Repr

/-- The transform under a key. -/
def Registry.find (r : Registry) (key : Json) : Except Error Action :=
  match List.find? (fun entry : Json × Action => entry.1.same key) r with
  | some (_, action) => .ok action
  | none => .error (.unknownKey key)

/-- Parameters of a transform, by name. -/
abbrev Params := List (String × Json)

/-- The file name among the parameters, as messages show it. -/
def filename (params : Params) : String :=
  ((Json.get? params "filename").getD (.str "<input>")).display

/-- How the parameters say a script is to be read. -/
def options (params : Params) : Except UnknownLanguage ConvertOptions :=
  match Language.ofJson ((Json.get? params "language").getD (.str Language.javascript.label)) with
  | .error e => .error e
  | .ok language =>
    .ok {
      filename := filename params
      language := language
      strict := ((Json.get? params "strict").getD (.bool false)).truthy }

/-- Runs a transform over a script. -/
def apply {τ : Type} [Tree τ] (parse : Parser τ) (action : Action) (code : Text)
    (params : Params) : List Notice × Except Error Conversion :=
  match action with
  | .privateToProperty =>
    match options params with
    | .error e => ([], .error (.unknownLanguage e))
    | .ok o =>
      match convert parse code o with
      | (notices, .error e) => (notices, .error (.convert e))
      | (notices, .ok c) => (notices, .ok c)
  | .label text => ([], .ok { code := text.toList ++ code })
  | .blank => ([], .error .unspecified)

/-- One line about the rewriting of private names in a file. -/
def description (filename : String) : String :=
  "Converted native private members to short unique properties in " ++ filename

/-- One line about a run of a transform. -/
def describe (action : Action) (params : Params) : Except Error String :=
  match action with
  | .privateToProperty => .ok (description (filename params))
  | .label text => .ok (text ++ ":" ++ ((Json.get? params "filename").getD .null).display)
  | .blank => .error .unspecified

/-- **Runs the transform under a key** and describes the run. -/
def run {τ : Type} [Tree τ] (parse : Parser τ) (r : Registry) (key : Json) (code : Text)
    (params : Params) : List Notice × Except Error (Conversion × String) :=
  match r.find key with
  | .error e => ([], .error e)
  | .ok action =>
    match apply parse action code params with
    | (notices, .error e) => (notices, .error e)
    | (notices, .ok c) =>
      match describe action params with
      | .error e => (notices, .error e)
      | .ok description => (notices, .ok (c, description))

end Transform

end Sigil
