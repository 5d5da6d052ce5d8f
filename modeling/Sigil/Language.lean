import Sigil.Path

/-!
# Language — the dialects of script, and telling them by file name

Three dialects are read: plain scripts with markup, typed scripts, and typed scripts with markup.
-/

namespace Sigil

/-- A dialect of script. -/
inductive Language where
  /-- Plain script; markup elements may stand as expressions. -/
  | javascript
  /-- Script with types; `<T>e` asserts a type. -/
  | typescript
  /-- Script with types and markup elements. -/
  | tsx
deriving DecidableEq, Repr, Inhabited

namespace Language

/-- Every dialect. -/
def all : List Language := [.javascript, .typescript, .tsx]

/-- The label a dialect goes by. -/
def label : Language → String
  | .javascript => "javascript"
  | .typescript => "typescript"
  | .tsx => "tsx"

/-- The dialect with a given label. -/
def ofLabel? (s : String) : Option Language := all.find? (·.label = s)

/-- **Labels are read back.** -/
theorem ofLabel?_label (l : Language) : ofLabel? l.label = some l := by
  cases l <;> decide

/-- Types may be written. -/
def typed : Language → Bool
  | .javascript => false
  | .typescript | .tsx => true

/-- Markup elements may stand as expressions. -/
def markup : Language → Bool
  | .typescript => false
  | .javascript | .tsx => true

/-- The dialect of a file name suffix in lower case. -/
def ofSuffix? : String → Option Language
  | ".js" | ".mjs" | ".cjs" | ".jsx" => some .javascript
  | ".ts" | ".mts" | ".cts" => some .typescript
  | ".tsx" => some .tsx
  | _ => none

/-- The dialect of a file, by the suffix of its name in any case, or else a default. -/
def ofFileName (path : Text) (default : Language) : Language :=
  (ofSuffix? (String.ofList ((Path.suffix path).map Char.toLower))).getD default

end Language

end Sigil
