import Mathlib.Data.List.Basic
import Sigil.Proofs.Text.Columns

/-!
# Proofs/Text/Lines — a position is the place of an offset in its line

    text before an offset   =   the lines before its line  ++  as many characters as its column

The table of line starts is what a search from line feed to line feed finds (`searchFrom_eq`).  It
ascends, so just one line starts at or before an offset and has the next line start behind it
(`position_eq_iff`), and the text splits there into whole lines and a part of one
(`take_of_locates`).
-/

namespace Sigil.Text

/-! ## The table -/

theorem startsFrom_eq_idxsOf (n : Nat) (t : Text) :
    startsFrom n t = (t.idxsOf '\n' n).map (· + 1) := by
  induction t generalizing n with
  | nil => rfl
  | cons c t ih =>
    rw [startsFrom, List.idxsOf_cons, ih]
    by_cases hc : c = '\n'
    · rw [if_pos hc, if_pos (beq_iff_eq.2 hc), List.map_cons]
    · rw [if_neg hc, if_neg (mt beq_iff_eq.1 hc)]

/-- **Lines start behind line feeds**, and the first at the start of the text. -/
theorem lineStarts_eq_idxsOf (t : Text) : t.lineStarts = 0 :: (t.idxsOf '\n').map (· + 1) := by
  rw [lineStarts, startsFrom_eq_idxsOf]

/-- **Line starts ascend.** -/
theorem pairwise_lineStarts (t : Text) : t.lineStarts.Pairwise (· < ·) := by
  rw [lineStarts_eq_idxsOf, List.pairwise_cons, List.pairwise_map]
  refine ⟨fun s hs => ?_, List.pairwise_idxsOf.imp fun h => Nat.succ_lt_succ h⟩
  obtain ⟨q, -, rfl⟩ := List.mem_map.1 hs
  exact Nat.succ_pos q

/-- The first line feed at or behind an offset. -/
def feed? (t : Text) (p : Nat) : Option Nat := ((t.drop p).idxOf? '\n').map (p + ·)

theorem lt_of_feed? {t : Text} {p q : Nat} (h : t.feed? p = some q) : p ≤ q ∧ q < t.length := by
  obtain ⟨k, hk, rfl⟩ := Option.map_eq_some_iff.1 h
  obtain ⟨hlt, -⟩ := List.idxOf?_eq_some_iff.1 hk
  rw [List.length_drop] at hlt
  exact ⟨Nat.le_add_right p k, by omega⟩

/-- The line starts behind an offset, found by going on from line feed to line feed. -/
def searchFrom (t : Text) (p : Nat) : List Nat :=
  match _h : t.feed? p with
  | none => []
  | some q => (q + 1) :: searchFrom t (q + 1)
termination_by t.length - p
decreasing_by
  have := lt_of_feed? _h
  omega

/-- The table has nothing up to the first line feed and goes on behind it. -/
theorem startsFrom_eq (n : Nat) (t : Text) : startsFrom n t = match t.idxOf? '\n' with
    | none => []
    | some k => (n + k + 1) :: startsFrom (n + k + 1) (t.drop (k + 1)) := by
  induction t generalizing n with
  | nil => rfl
  | cons c t ih =>
    rw [startsFrom, List.idxOf?_cons]
    by_cases hc : c = '\n'
    · rw [if_pos hc, if_pos (beq_iff_eq.2 hc)]
      rfl
    · rw [if_neg hc, if_neg (mt beq_iff_eq.1 hc), ih]
      cases t.idxOf? '\n' with
      | none => rfl
      | some k =>
        have hshift : n + 1 + k = n + (k + 1) := by omega
        simp only [Option.map_some, hshift, List.drop_succ_cons]

/-- **The search finds the table.** -/
theorem searchFrom_eq (t : Text) (p : Nat) : t.searchFrom p = startsFrom p (t.drop p) := by
  fun_induction searchFrom t p with
  | case1 p h =>
    rw [feed?, Option.map_eq_none_iff] at h
    rw [startsFrom_eq, h]
  | case2 p q h ih =>
    obtain ⟨k, hk, rfl⟩ := Option.map_eq_some_iff.1 h
    rw [ih, startsFrom_eq p, hk]
    simp only [List.drop_drop, Nat.add_assoc]

/-! ## Places -/

/-- **The place of an offset** in a table of line starts: the line starts at or before the offset,
the column makes up for the rest, and the next line, if there is one, starts behind the offset. -/
structure Locates (starts : List Nat) (offset : Int) (p : Position) : Prop where
  line_nonneg : 0 ≤ p.line
  column_nonneg : 0 ≤ p.column
  start : ∃ s, starts[p.line.toNat]? = some s ∧ s + p.column = offset
  next : ∀ s, starts[p.line.toNat + 1]? = some s → offset < s

variable {starts : List Nat} {l : Nat} {offset : Int}

/-- In an ascending table the lines passed are those that start at or before the offset. -/
theorem lt_linesUpTo_iff (h : starts.Pairwise (· < ·)) :
    l < linesUpTo starts offset ↔ ∃ s, starts[l]? = some s ∧ (s : Int) ≤ offset := by
  induction starts generalizing l with
  | nil => simp [linesUpTo]
  | cons s starts ih =>
    obtain ⟨hfirst, hrest⟩ := List.pairwise_cons.1 h
    rw [linesUpTo_cons]
    split
    · next hs =>
      cases l with
      | zero => simpa using hs
      | succ l => rw [Nat.add_lt_add_iff_right, ih hrest, List.getElem?_cons_succ]
    · next hs =>
      -- the later lines start behind the first, which is behind the offset already
      refine iff_of_false (Nat.not_lt_zero l) ?_
      rintro ⟨r, hr, hle⟩
      rcases List.mem_cons.1 (List.mem_of_getElem? hr) with rfl | hr
      · exact hs hle
      · have := hfirst r hr
        omega

theorem linesUpTo_eq_succ_iff (h : starts.Pairwise (· < ·)) :
    linesUpTo starts offset = l + 1 ↔ (∃ s, starts[l]? = some s ∧ (s : Int) ≤ offset) ∧
      ∀ s, starts[l + 1]? = some s → offset < s := by
  have hnext : ¬l + 1 < linesUpTo starts offset ↔ ∀ s, starts[l + 1]? = some s → offset < s := by
    rw [lt_linesUpTo_iff h, not_exists]
    exact forall_congr' fun s => by rw [not_and, Int.not_le]
  rw [← lt_linesUpTo_iff h, ← hnext]
  omega

/-- **A position is the place of its offset**, and the only one. -/
theorem position_eq_iff (h : starts.Pairwise (· < ·)) (hfirst : 0 < linesUpTo starts offset)
    {p : Position} : position starts offset = p ↔ Locates starts offset p := by
  constructor
  · rintro rfl
    obtain ⟨k, hk⟩ : ∃ k, linesUpTo starts offset = k + 1 := ⟨_, (Nat.sub_add_cancel hfirst).symm⟩
    obtain ⟨⟨s, hs, hle⟩, hnext⟩ := (linesUpTo_eq_succ_iff h).1 hk
    have hposition : position starts offset = ⟨k, offset - s⟩ := by
      rw [position, lineStart, hk]
      simp [hs]
    rw [hposition]
    exact ⟨Int.natCast_nonneg k, Int.sub_nonneg_of_le hle, ⟨s, hs, by simp only; omega⟩, hnext⟩
  · rintro ⟨hline, hcolumn, ⟨s, hs, hsum⟩, hnext⟩
    have hk := (linesUpTo_eq_succ_iff h).2 ⟨⟨s, hs, by omega⟩, hnext⟩
    obtain ⟨line, column⟩ := p
    simp only at hs hsum hline hk
    simp only [position, lineStart, hk, hs, Option.getD_some, Position.mk.injEq]
    omega

/-! ## Lines -/

/-- The first lines of a text, each with a line feed behind it. -/
def firstLines (t : Text) (l : Nat) : Text := ((splitOn '\n' t).take l).flatMap (· ++ ['\n'])

theorem firstLines_succ {t part : Text} (h : (splitOn '\n' t)[l]? = some part) :
    t.firstLines (l + 1) = t.firstLines l ++ (part ++ ['\n']) := by
  rw [firstLines, firstLines, List.take_add_one, h, List.flatMap_append]
  exact congrArg _ (List.flatMap_singleton ..)

/-- **A line starts behind the lines before it**, and as many start as there are. -/
theorem getElem?_startsFrom_splitOn (n l : Nat) (t : Text) :
    (n :: startsFrom n t)[l]? = (splitOn '\n' t)[l]?.map fun _ => n + (t.firstLines l).length := by
  induction t generalizing n l with
  | nil => cases l <;> rfl
  | cons c t ih =>
    cases l with
    | zero =>
      obtain ⟨part, parts, hsplit⟩ := exists_splitOn '\n' (c :: t)
      rw [hsplit]
      rfl
    | succ l =>
      rw [startsFrom, firstLines]
      by_cases hc : c = '\n'
      · rw [if_pos hc, hc, splitOn_sep, List.getElem?_cons_succ, List.getElem?_cons_succ, ih,
          List.take_succ_cons, List.flatMap_cons, List.length_append]
        exact congrArg (Option.map · _) (funext fun _ => Nat.add_assoc n 1 _)
      · -- the character joins the first line, behind which all the others start one later
        obtain ⟨part, parts, hsplit⟩ := exists_splitOn '\n' t
        have hrest := ih (n + 1) (l + 1)
        rw [firstLines, hsplit, List.getElem?_cons_succ, List.getElem?_cons_succ] at hrest
        rw [if_neg hc, splitOn_cons_of_ne hc hsplit, List.getElem?_cons_succ, hrest,
          List.getElem?_cons_succ, List.take_succ_cons, List.take_succ_cons, List.flatMap_cons,
          List.flatMap_cons]
        refine congrArg (Option.map · _) (funext fun _ => ?_)
        simp only [List.length_append, List.length_cons]
        omega

/-- A line stands behind the lines before it, and the last line ends the text. -/
theorem exists_eq_firstLines_append {t part : Text} (h : (splitOn '\n' t)[l]? = some part) :
    ∃ rest, t ++ ['\n'] = t.firstLines l ++ (part ++ '\n' :: rest) ∧
      ((splitOn '\n' t)[l + 1]? = none → rest = []) := by
  obtain ⟨hl, hpart⟩ := List.getElem?_eq_some_iff.1 h
  have hparts : splitOn '\n' t
      = (splitOn '\n' t).take l ++ part :: (splitOn '\n' t).drop (l + 1) := by
    rw [← hpart, List.getElem_cons_drop, List.take_append_drop]
  refine ⟨((splitOn '\n' t).drop (l + 1)).flatMap (· ++ ['\n']), ?_, fun hnone => ?_⟩
  · calc t ++ ['\n'] = (splitOn '\n' t).flatMap (· ++ ['\n']) := (flatMap_splitOn _ t).symm
      _ = ((splitOn '\n' t).take l ++ part :: (splitOn '\n' t).drop (l + 1)).flatMap
            (· ++ ['\n']) := congrArg (List.flatMap _) hparts
      _ = _ := by rw [List.flatMap_append, List.flatMap_cons, List.append_assoc]; rfl
  · rw [List.drop_eq_nil_of_le (List.getElem?_eq_none_iff.1 hnone)]
    rfl

/-- **The text before an offset** is the lines before the offset's line, and as many characters of
that line as the column says. -/
theorem take_of_locates {t : Text} {o l c : Nat} (h : Locates t.lineStarts o ⟨l, c⟩) :
    ∃ part, (splitOn '\n' t)[l]? = some part ∧ t.take o = t.firstLines l ++ part.take c := by
  obtain ⟨-, -, ⟨s, hs, hsum⟩, hnext⟩ := h
  simp only [Int.toNat_natCast, lineStarts, getElem?_startsFrom_splitOn] at hs hsum hnext
  obtain ⟨part, hpart, hlength⟩ := Option.map_eq_some_iff.1 hs
  obtain ⟨rest, htext, hlast⟩ := exists_eq_firstLines_append hpart
  have ho : o = (t.firstLines l).length + c := by omega
  refine ⟨part, hpart, ?_⟩
  cases hmore : (splitOn '\n' t)[l + 1]? with
  | none =>
    rw [hlast hmore, ← List.append_assoc] at htext
    have hall : t = t.firstLines l ++ part := List.append_cancel_right htext
    calc t.take o = (t.firstLines l ++ part).take o := congrArg (List.take o) hall
      _ = t.firstLines l ++ part.take c := by rw [ho, List.take_length_add_append]
  | some next =>
    have hlt := hnext _ (congrArg (Option.map _) hmore)
    have hlengths := congrArg List.length htext
    rw [firstLines_succ hpart] at hlt
    simp only [List.length_append, List.length_cons, List.length_nil] at hlt hlengths
    have hfits : c ≤ part.length := by omega
    calc t.take o = (t ++ ['\n']).take o := (List.take_append_of_le_length (by omega)).symm
      _ = t.firstLines l ++ part.take c := by
        rw [htext, ho, List.take_length_add_append, List.take_append_of_le_length hfits]

/-- **Positions undo the splitting into lines.**  The search from line feed to line feed comes to
its end with the line starts, 0 and the offsets behind the line feeds, which ascend.  The position
of an offset, be it behind the end of the text, is its place among them and the only one: its line
counts the line feeds before the offset, and the text before the offset is so many whole lines and
so many characters of the next. -/
theorem position_exact (t : Text) :
    t.lineStarts = 0 :: t.searchFrom 0 ∧
      t.lineStarts = 0 :: (t.idxsOf '\n').map (· + 1) ∧
      t.lineStarts.Pairwise (· < ·) ∧
      ∀ o : Nat, (∀ p, position t.lineStarts o = p ↔ Locates t.lineStarts o p) ∧
        ∃ start column part, t.lineStarts[(t.take o).count '\n']? = some start ∧
          start + column = o ∧ position t.lineStarts o = ⟨(t.take o).count '\n', column⟩ ∧
          (splitOn '\n' t)[(t.take o).count '\n']? = some part ∧
          t.take o = t.firstLines ((t.take o).count '\n') ++ part.take column := by
  have hascends := pairwise_lineStarts t
  refine ⟨?_, lineStarts_eq_idxsOf t, hascends, fun o => ?_⟩
  · rw [searchFrom_eq]
    rfl
  have hfirst : 0 < linesUpTo t.lineStarts o := by
    rw [linesUpTo_lineStarts]
    exact Nat.succ_pos _
  have hplace : ∀ p, position t.lineStarts o = p ↔ Locates t.lineStarts o p := fun p =>
    position_eq_iff hascends hfirst
  have hhere := (hplace _).1 rfl
  obtain ⟨column, hcolumn⟩ := Int.eq_ofNat_of_zero_le hhere.column_nonneg
  obtain ⟨start, hstart, hsum⟩ := hhere.start
  have hposition : position t.lineStarts o = ⟨(t.take o).count '\n', column⟩ := by
    rw [← line_position, ← hcolumn]
  rw [hposition] at hhere hstart hsum
  obtain ⟨part, hpart, htake⟩ := take_of_locates hhere
  exact ⟨hplace, start, column, part, hstart, Int.ofNat_inj.1 hsum, hposition, hpart, htake⟩

/-- A line feed ends its line, also behind a carriage return, and the last line goes on forever. -/
example : [0, 2, 3, 4, 9].map (position (lineStarts "a\r\n\nb".toList))
    = [⟨0, 0⟩, ⟨0, 2⟩, ⟨1, 0⟩, ⟨2, 0⟩, ⟨2, 5⟩] := by decide

end Sigil.Text
