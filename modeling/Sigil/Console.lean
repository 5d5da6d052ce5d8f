import Sigil.Text.Blank

/-!
# Console — text with style tags, as it is shown

A tag stands in brackets, as in `[cyan]foo.js[/cyan]`, and is not shown.  A closing tag must close a
tag that is open; `[/]` closes the last one.  A backslash in front makes a tag plain text.  What is
shown without colours is the text without its tags.
-/

namespace Sigil.Console

/-- A stretch of text or a tag. -/
inductive Piece where
  /-- Text that is shown. -/
  | plain (text : Text)
  /-- What stands between the brackets of a tag. -/
  | tag (content : Text)
deriving DecidableEq, Repr

/-- A tag starts with a small letter or with one of these signs. -/
def opensTag (c : Char) : Bool := ('a' ≤ c && c ≤ 'z') || c = '#' || c = '/' || c = '@'

/-- The content of a tag and the text after it, for the text just behind a bracket. -/
def tag? (t : Text) : Option (Text × Text) :=
  let content := t.takeWhile fun c => c ≠ ']' && c ≠ '['
  match content, t.drop content.length with
  | c :: _, ']' :: rest => if opensTag c then some (content, rest) else none
  | _, _ => none

theorem length_of_tag? {t content rest : Text} (h : tag? t = some (content, rest)) :
    rest.length < t.length := by
  simp only [tag?] at h
  split at h
  · rename_i c cs rest' _ hdrop
    split at h
    · obtain ⟨-, rfl⟩ := Prod.mk.inj (Option.some.inj h)
      have := congrArg List.length hdrop
      simp only [List.length_drop, List.length_cons] at this
      omega
    · simp at h
  · simp at h

/-- Backslashes. -/
def slashes (n : Nat) : Text := List.replicate n '\\'

/-- The pieces of a text that comes after some backslashes.  Before a tag every two backslashes are
one, and a single one makes the tag plain text. -/
def pieces (n : Nat) : Text → List Piece
  | [] => [.plain (slashes n)]
  | '\\' :: rest => pieces (n + 1) rest
  | '[' :: rest =>
    match h : tag? rest with
    | some (content, after) =>
      have := length_of_tag? h
      let shown := if n % 2 = 1 then .plain ('[' :: content ++ [']']) else .tag content
      .plain (slashes (n / 2)) :: shown :: pieces 0 after
    | none => .plain (slashes (n - 1) ++ ['[']) :: pieces 0 rest
  | c :: rest => .plain (slashes n ++ [c]) :: pieces 0 rest
termination_by t => t.length

/-- A tag's name: what stands before an equals sign, in small letters. -/
def tagName (content : Text) : Text :=
  (Text.strip (content.takeWhile (· ≠ '='))).map Char.toLower

/-- The text of some pieces, given the names of the tags that are open, last first; nothing if a tag
closes what is not open. -/
def shownWith (opened : List Text) : List Piece → Option Text
  | [] => some []
  | .plain t :: rest => (shownWith opened rest).map (t ++ ·)
  | .tag ('/' :: content) :: rest =>
    let name := tagName content
    if name = [] then
      match opened with
      | [] => none
      | _ :: others => shownWith others rest
    else if name ∈ opened then shownWith (opened.erase name) rest
    else none
  | .tag content :: rest => shownWith (tagName content :: opened) rest

/-- **The text that is shown**, unless a tag closes what is not open. -/
def shown? (t : Text) : Option Text := shownWith [] (pieces 0 t)

/-- A text in a style. -/
def styled (style : String) (t : Text) : Text :=
  ("[" ++ style ++ "]").toList ++ t ++ ("[/" ++ style ++ "]").toList

end Sigil.Console
