/-!
# Text — scripts as lists of characters, and the parts cut out of them

A script is the list of its characters, so an offset is an index into that list and a span
`[start, stop)` is a pair of offsets.  `Text.slice` cuts a span out; its bounds may lie anywhere:
a negative bound counts from the end of the text, and both ends clip to the text.
-/

namespace Sigil

/-- A text is the list of its characters; an offset counts characters. -/
abbrev Text := List Char

namespace Text

/-- Where a bound falls in a text of length `n`. -/
def bound (n : Nat) (b : Int) : Nat :=
  if b < 0 then (b + n).toNat else min b.toNat n

/-- The characters from bound `a` up to bound `b`; none when the bounds cross. -/
def slice (t : Text) (a b : Int) : Text :=
  (t.take (bound t.length b)).drop (bound t.length a)

@[simp] theorem slice_nil (a b : Int) : slice [] a b = [] := by simp [slice]

/-- **A slice whose bounds do not count from the end** is what is left of the prefix up to `b` after
the prefix up to `a`; past the end the bounds clip. -/
theorem slice_ofNat (t : Text) (a b : Nat) : slice t a b = (t.take b).drop a := by
  have hb : ∀ k : Nat, bound t.length k = min k t.length := fun k => by
    unfold bound
    split <;> omega
  have htake : t.take (min b t.length) = t.take b := by rw [← List.take_take, List.take_length]
  rw [slice, hb, hb, htake]
  rcases Nat.le_total a t.length with h | h
  · rw [Nat.min_eq_left h]
  · have hl : (t.take b).length ≤ t.length := List.length_take_le' _ _
    rw [Nat.min_eq_right h, List.drop_eq_nil_of_le hl, List.drop_eq_nil_of_le (Nat.le_trans hl h)]

/-- The parts of a text between the occurrences of a separator. -/
def splitOn (sep : Char) : Text → List Text
  | [] => [[]]
  | c :: rest =>
    if c = sep then [] :: splitOn sep rest
    else
      match splitOn sep rest with
      | [] => [[c]]
      | part :: parts => (c :: part) :: parts

theorem splitOn_sep (sep : Char) (t : Text) : splitOn sep (sep :: t) = [] :: splitOn sep t := by
  rw [splitOn, if_pos rfl]

theorem exists_splitOn (sep : Char) (t : Text) :
    ∃ part parts, splitOn sep t = part :: parts := by
  cases t with
  | nil => exact ⟨_, _, rfl⟩
  | cons c t =>
    rw [splitOn]
    split
    · exact ⟨_, _, rfl⟩
    · split <;> exact ⟨_, _, rfl⟩

theorem splitOn_cons_of_ne {sep c : Char} {t part : Text} {parts : List Text} (hc : c ≠ sep)
    (h : splitOn sep t = part :: parts) : splitOn sep (c :: t) = (c :: part) :: parts := by
  rw [splitOn, if_neg hc, h]

/-- A text without the separator joins the first part of what follows it. -/
theorem splitOn_append {sep : Char} {a t part : Text} {parts : List Text} (ha : sep ∉ a)
    (h : splitOn sep t = part :: parts) : splitOn sep (a ++ t) = (a ++ part) :: parts := by
  induction a with
  | nil => exact h
  | cons c a ih =>
    obtain ⟨hc, ha⟩ := not_or.1 (mt List.mem_cons.2 ha)
    exact splitOn_cons_of_ne (Ne.symm hc) (ih ha)

/-- A text followed by nothing or by the separator is a part. -/
theorem exists_splitOn_append {sep : Char} {a t : Text} (ha : sep ∉ a)
    (ht : ∀ c ∈ t.head?, c = sep) :
    ∃ parts, splitOn sep (a ++ t) = a :: parts ∧ splitOn sep t = [] :: parts := by
  have hfirst : ∃ parts, splitOn sep t = [] :: parts := by
    cases t with
    | nil => exact ⟨[], rfl⟩
    | cons c t =>
      obtain rfl : c = sep := ht c rfl
      exact ⟨_, splitOn_sep c t⟩
  obtain ⟨parts, h⟩ := hfirst
  refine ⟨parts, ?_, h⟩
  rw [splitOn_append ha h, List.append_nil]

/-- **The parts with the separator behind each** are the text with the separator behind it. -/
theorem flatMap_splitOn (sep : Char) (t : Text) :
    (splitOn sep t).flatMap (· ++ [sep]) = t ++ [sep] := by
  induction t with
  | nil => rfl
  | cons c t ih =>
    by_cases hc : c = sep
    · rw [hc, splitOn_sep, List.flatMap_cons, ih]
      rfl
    · obtain ⟨part, parts, hsplit⟩ := exists_splitOn sep t
      rw [hsplit, List.flatMap_cons] at ih
      rw [splitOn_cons_of_ne hc hsplit, List.flatMap_cons, List.cons_append, List.cons_append, ih]
      rfl

end Text

end Sigil
