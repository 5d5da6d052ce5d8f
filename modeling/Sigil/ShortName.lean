import Sigil.Text

/-!
# ShortName — the names `$a, $b, …, $Z, $aa, $ab, …`

The `n`-th short name is `$` and the `n`-th word over the 52 letters, words being counted by length
and then by their letters.  There is no letter for zero, so each step to a longer word takes one off
the quotient: `word n = word (n / 52 - 1) ++ [letter (n % 52)]`.
-/

namespace Sigil.ShortName

/-- The sign every short name starts with. -/
def sign : Char := '$'

/-- The `d`-th letter: `a … z`, then `A … Z`. -/
def letter (d : Nat) : Char :=
  if d < 26 then Char.ofNat (97 + d) else Char.ofNat (39 + d)

/-- The `n`-th word over the letters, shortest words first. -/
def word (n : Nat) : Text :=
  if n < 52 then [letter n] else word (n / 52 - 1) ++ [letter (n % 52)]
termination_by n
decreasing_by omega

/-- The `n`-th short name. -/
def name (n : Nat) : Text := sign :: word n

/-- No name belongs to a negative index. -/
structure NegativeIndex where
  /-- The index that was asked for. -/
  index : Int
deriving DecidableEq, Repr

/-- The wording of a negative index. -/
def NegativeIndex.message (e : NegativeIndex) : String :=
  "Name index must be non-negative, got " ++ toString e.index

/-- The short name of an index, if the index is one. -/
def ofIndex (i : Int) : Except NegativeIndex Text :=
  if i < 0 then .error ⟨i⟩ else .ok (name i.toNat)

end Sigil.ShortName
