import Sigil.Reading
import Sigil.Walk

/-!
# Convert — rewriting the private names of one script

A script without `#` is left alone and not even parsed.  Otherwise its tree is walked, and the edits
that the walk finds are applied to the text.
-/

namespace Sigil

/-- The outcome of rewriting one script. -/
structure Conversion where
  /-- The script after the edits. -/
  code : Text
  /-- How many classes declare private names. -/
  classCount : Nat := 0
  /-- How many short names were handed out. -/
  fieldCount : Nat := 0
  /-- How many edits were made. -/
  editCount : Nat := 0
  /-- The edits, sorted. -/
  edits : List Edit := []
deriving DecidableEq, Repr, Inhabited

namespace Conversion

/-- The sign in front of private names. -/
def sigil : Char := '#'

/-- **Rewrites a script by its tree.** -/
def ofTree {τ : Type} [Tree τ] (code : Text) (root : τ) : Except Edit.Misfit Conversion :=
  if !code.contains sigil then .ok { code := code }
  else
    let w := ({} : Walker).walk root
    if w.edits.isEmpty then .ok { code := code }
    else
      let edits := Edit.sorted w.edits
      match Edit.patch code edits with
      | .error e => .error e
      | .ok out =>
        .ok {
          code := out
          classCount := w.classCount
          fieldCount := w.fieldCount
          editCount := edits.length
          edits := edits }

/-- What is reported of a conversion. -/
def notices (c : Conversion) (filename : String) : List Notice :=
  if c.edits.isEmpty then []
  else [.rewritten filename c.classCount c.fieldCount c.editCount]

end Conversion

/-- Why a script could not be rewritten. -/
inductive ConvertError where
  /-- The script is broken. -/
  | broken (b : Broken)
  /-- The tree's spans do not fit the script. -/
  | misfit (m : Edit.Misfit)
deriving DecidableEq, Repr

/-- The wording of a failed conversion. -/
def ConvertError.message : ConvertError → String
  | .broken b => b.message
  | .misfit m => m.message

/-- How a script is to be read. -/
structure ConvertOptions where
  /-- The script's name in reports. -/
  filename : String
  /-- The script's dialect. -/
  language : Language := .javascript
  /-- Refuse broken scripts. -/
  strict : Bool := false
deriving DecidableEq, Repr

/-- **Rewrites a script**, reading it with a given parser. -/
def convert {τ : Type} [Tree τ] (parse : Parser τ) (code : Text) (o : ConvertOptions) :
    List Notice × Except ConvertError Conversion :=
  if !code.contains Conversion.sigil then ([], .ok { code := code })
  else
    match (parse o.language code).accept o.filename o.strict with
    | (notices, .error b) => (notices, .error (.broken b))
    | (notices, .ok root) =>
      match Conversion.ofTree code root with
      | .error m => (notices, .error (.misfit m))
      | .ok c => (notices ++ c.notices o.filename, .ok c)

end Sigil
