import Sigil.Proofs.Edit.Pieces
import Sigil.Proofs.Text.Columns
import Sigil.Shift

/-!
# Proofs/Shift/ByLine — the shifts of a line, read off its edits one by one

`Shift.scan` carries a column along and `Shift.group` puts neighbours together.  Neither is seen
from outside: the shifts of a line are those of its edits, each with the column of its own start
(`onLine_eq`).
-/

namespace Sigil.Shift

/-- **The shifts of a line**, none if it has no edit. -/
def onLine (text : Text) (edits : List Edit) (line : Int) : List Shift :=
  ((byLine text edits).lookup line).getD []

/-! ## One shift -/

theorem adjustFrom_passed {s : Shift} {ss : List Shift} {moved column : Int}
    (h : s.column + s.originalLength ≤ column) :
    adjustFrom moved column (s :: ss) = adjustFrom (moved + s.growth) column ss := by
  rw [adjustFrom, if_pos h]

theorem adjustFrom_inside {s : Shift} {ss : List Shift} {moved column : Int}
    (h : s.column < column) (h' : column < s.column + s.originalLength) :
    adjustFrom moved column (s :: ss) = s.column + moved := by
  rw [adjustFrom, if_neg (by omega), if_pos h]

theorem adjustFrom_ahead {s : Shift} {ss : List Shift} {moved column : Int}
    (h : column ≤ s.column) (h' : column < s.column + s.originalLength) :
    adjustFrom moved column (s :: ss) = column + moved := by
  rw [adjustFrom, if_neg (by omega), if_neg (by omega)]

/-! ## The shifts of one line -/

/-- The shifts that a list has on a line. -/
def select (line : Int) (xs : List (Int × Shift)) : List Shift :=
  (xs.filter fun x => x.1 = line).map (·.2)

theorem select_cons (line l : Int) (s : Shift) (xs : List (Int × Shift)) :
    select line ((l, s) :: xs) = if l = line then s :: select line xs else select line xs := by
  rw [select, List.filter_cons]
  by_cases hl : l = line <;> simp [hl, select]

theorem select_eq_nil {line : Int} {xs : List (Int × Shift)} (h : ∀ x ∈ xs, line < x.1) :
    select line xs = [] := by
  rw [select, List.map_eq_nil_iff, List.filter_eq_nil_iff]
  intro x hx
  have := h x hx
  simp only [decide_eq_true_eq]
  omega

/-- An edit as its line sees it, with the line. -/
def ofEdit (text : Text) (e : Edit) : Int × Shift :=
  ((Text.position text.lineStarts e.start).line,
    ⟨text.unitColumn e.start, Text.unitLength (text.slice e.start e.stop),
      Text.unitLength e.newText⟩)

/-! ## The running column -/

/-- **The column carried along is the column of each start.**  What is carried belongs to an offset
`o` that no start lies before; or no line has been entered yet. -/
theorem scan_eq_map {text : Text} {edits : List Edit} {line : Int} {o column : Nat}
    (hs : Edit.Ascending edits) (ho : ∀ e ∈ edits, (o : Int) ≤ e.start)
    (hcarry : line < 0 ∨
      line = (Text.position text.lineStarts o).line ∧ column = text.unitColumn o) :
    scan text text.lineStarts line o column edits = edits.map (ofEdit text) := by
  induction edits generalizing line o column with
  | nil => rfl
  | cons e edits ih =>
    obtain ⟨hhead, htail⟩ := List.pairwise_cons.1 hs
    have hoe := ho e List.mem_cons_self
    obtain ⟨s, hse⟩ := Int.eq_ofNat_of_zero_le (Int.le_trans (Int.natCast_nonneg o) hoe)
    have hos : o ≤ s := by omega
    have hcolumn : (if (Text.position text.lineStarts e.start).line = line then ((o : Int), column)
        else ((Text.lineStart text.lineStarts e.start : Int), 0)).2
          + Text.unitLength (text.slice
            (if (Text.position text.lineStarts e.start).line = line then ((o : Int), column)
              else ((Text.lineStart text.lineStarts e.start : Int), 0)).1 e.start)
        = text.unitColumn e.start := by
      rw [hse]
      split
      · next h =>
        rw [Text.line_position] at h
        rcases hcarry with hneg | ⟨hline, rfl⟩
        · omega
        · rw [Text.line_position] at hline
          exact (Text.unitColumn_of_line_eq text hos (by omega)).symm
      · exact Nat.zero_add _
    rw [scan]
    simp only [hcolumn, List.map_cons]
    rw [hse, ih htail (fun a ha => hse ▸ hhead a ha) (.inr ⟨rfl, rfl⟩), ofEdit, hse]

/-! ## Neighbours put together -/

theorem group_cons_head (l : Int) (s : Shift) (xs : List (Int × Shift)) :
    ∃ ss more, group ((l, s) :: xs) = (l, s :: ss) :: more := by
  rw [group]
  cases group xs with
  | nil => exact ⟨[], [], rfl⟩
  | cons g more =>
    dsimp only
    split
    · exact ⟨g.2, more, rfl⟩
    · exact ⟨[], g :: more, rfl⟩

theorem lookup_cons_getD (l : Int) (ss : List Shift) (groups : List (Int × List Shift))
    (line : Int) : (((l, ss) :: groups).lookup line).getD []
      = if l = line then ss else (groups.lookup line).getD [] := by
  by_cases h : l = line
  · subst h
    simp
  · rw [if_neg h, List.lookup_cons, beq_eq_false_iff_ne.2 (Ne.symm h)]

/-- **Looking a line up in the groups** of an ascending list finds all that the list has on it. -/
theorem lookup_group {xs : List (Int × Shift)} (h : xs.Pairwise fun a b => a.1 ≤ b.1) (line : Int) :
    ((group xs).lookup line).getD [] = select line xs := by
  induction xs with
  | nil => rfl
  | cons x xs ih =>
    obtain ⟨l, s⟩ := x
    obtain ⟨hhead, htail⟩ := List.pairwise_cons.1 h
    have ih := ih htail
    rw [select_cons, ← ih]
    cases xs with
    | nil => exact lookup_cons_getD l [s] [] line
    | cons y ys =>
      obtain ⟨l', s'⟩ := y
      obtain ⟨ss, more, hg⟩ := group_cons_head l' s' ys
      rw [hg] at ih ⊢
      rw [group, hg]
      by_cases hl : l = l'
      · -- `l` joins the first group
        subst hl
        simp only [if_true, lookup_cons_getD]
        split <;> rfl
      · -- `l` comes before all lines of the rest
        simp only [if_neg hl, lookup_cons_getD] at ih ⊢
        split
        · next hline =>
          have hle : l ≤ l' := hhead (l', s') List.mem_cons_self
          rw [ih, select_eq_nil fun a ha => ?_]
          rcases List.mem_cons.1 ha with rfl | ha
          · simp only
            omega
          · have := (List.pairwise_cons.1 htail).1 a ha
            simp only at this
            omega
        · rfl

/-- Starts that ascend have lines that ascend. -/
theorem pairwise_line {text : Text} {edits : List Edit} (hs : Edit.Ascending edits)
    (h0 : ∀ e ∈ edits, 0 ≤ e.start) :
    (edits.map (ofEdit text)).Pairwise fun a b => a.1 ≤ b.1 := by
  rw [List.pairwise_map]
  refine List.Pairwise.imp_of_mem (fun {a b} ha hb hab => ?_) hs
  obtain ⟨s, hsa⟩ := Int.eq_ofNat_of_zero_le (h0 a ha)
  obtain ⟨t, htb⟩ := Int.eq_ofNat_of_zero_le (h0 b hb)
  have hst : s ≤ t := by omega
  have hprefix : (text.take s).count '\n' ≤ (text.take t).count '\n' :=
    (List.take_sublist_take_left hst).count_le _
  rw [ofEdit, ofEdit, hsa, htb, Text.line_position, Text.line_position]
  omega

section

variable (text : Text) {edits : List Edit} (h0 : ∀ e ∈ edits, 0 ≤ e.start)
include h0

/-- Sorted edits have lines that ascend. -/
theorem pairwise_line_sorted :
    ((Edit.sorted edits).map (ofEdit text)).Pairwise fun a b => a.1 ≤ b.1 :=
  pairwise_line (Edit.ascending_sorted edits) fun e he => h0 e (List.mem_mergeSort.1 he)

/-- The shifts of all lines are the shifts of the sorted edits, put together. -/
theorem byLine_eq : byLine text edits = group ((Edit.sorted edits).map (ofEdit text)) :=
  congrArg group (scan_eq_map (o := 0) (Edit.ascending_sorted edits)
    (fun e he => h0 e (List.mem_mergeSort.1 he)) (.inl (by decide)))

end

/-- **The shifts of a line are those of its edits**, each with the column of its own start. -/
theorem onLine_eq {text : Text} {edits : List Edit} (h0 : ∀ e ∈ edits, 0 ≤ e.start) (line : Int) :
    onLine text edits line = select line ((Edit.sorted edits).map (ofEdit text)) := by
  rw [onLine, byLine_eq text h0, lookup_group (pairwise_line_sorted text h0)]

end Sigil.Shift
