import Sigil.Text.Lines
import Sigil.Text.Units

/-!
# Proofs/Text/Columns — a position is read off the text before it

Cut a text at an offset: the line feeds in the first part are the offset's line, and what follows
the last of them, `lastLine`, spans its column.  `line_position` and `slice_lineStart` say so for
the table of line starts, and `unitColumn_eq` for columns in UTF-16 units.
-/

namespace Sigil.Text

/-! ## What follows the last line feed -/

/-- The part of a text behind its last line feed. -/
def lastLine (t : Text) : Text := (t.reverse.takeWhile (· ≠ '\n')).reverse

@[simp] theorem lastLine_nil : lastLine [] = [] := rfl

theorem lastLine_suffix (t : Text) : lastLine t <:+ t := by
  have h : t.reverse.takeWhile (· ≠ '\n') <+: t.reverse := List.takeWhile_prefix _
  rw [lastLine, ← List.reverse_prefix, List.reverse_reverse]
  exact h

theorem length_lastLine_le (t : Text) : (lastLine t).length ≤ t.length :=
  (lastLine_suffix t).length_le

/-- **Text without a line feed stays on the line it is put behind.** -/
theorem lastLine_append_of_notMem (s : Text) {t : Text} (h : '\n' ∉ t) :
    lastLine (s ++ t) = lastLine s ++ t := by
  have hp : ∀ c ∈ t.reverse, decide (c ≠ '\n') = true := fun c hc =>
    decide_eq_true fun e => h (e ▸ List.mem_reverse.1 hc)
  rw [lastLine, List.reverse_append, List.takeWhile_append_of_pos hp, List.reverse_append,
    List.reverse_reverse]
  rfl

/-- **Text with a line feed decides alone what the last line is.** -/
theorem lastLine_append_of_mem (s : Text) {t : Text} (h : '\n' ∈ t) :
    lastLine (s ++ t) = lastLine t := by
  obtain ⟨a, b, rfl⟩ := List.append_of_mem h
  have hb : ∀ r : Text, ((b.reverse ++ '\n' :: r).takeWhile (· ≠ '\n'))
      = b.reverse.takeWhile (· ≠ '\n') := fun r => by
    induction b.reverse with
    | nil => rfl
    | cons c b ih => rw [List.cons_append, List.takeWhile_cons, List.takeWhile_cons, ih]
  simp only [lastLine, List.reverse_append, List.reverse_cons, List.append_assoc,
    List.cons_append, List.nil_append, hb]

theorem lastLine_cons_of_mem (c : Char) {t : Text} (h : '\n' ∈ t) :
    lastLine (c :: t) = lastLine t := lastLine_append_of_mem [c] h

/-- A text without line feeds is one line. -/
theorem lastLine_of_notMem {t : Text} (h : '\n' ∉ t) : lastLine t = t := by
  rw [← List.nil_append t, lastLine_append_of_notMem [] h]
  rfl

theorem lastLine_newline_cons (t : Text) : lastLine ('\n' :: t) = lastLine t := by
  by_cases h : '\n' ∈ t
  · exact lastLine_cons_of_mem _ h
  · rw [lastLine_of_notMem h, ← List.singleton_append, lastLine_append_of_notMem _ h]
    rfl

/-- Every character has a unit. -/
theorem length_le_unitLength (t : Text) : t.length ≤ unitLength t := by
  induction t with
  | nil => exact Nat.le_refl 0
  | cons c t ih =>
    rw [unitLength_cons, List.length_cons, unitWidth]
    split <;> omega

/-- The last line grows by the units of what is put behind it without a line feed. -/
theorem unitLength_lastLine_append (s : Text) {t : Text} (h : '\n' ∉ t) :
    unitLength (lastLine (s ++ t)) = unitLength (lastLine s) + unitLength t := by
  rw [lastLine_append_of_notMem s h, unitLength_append]

/-! ## The table of line starts -/

theorem lt_of_mem_startsFrom {n s : Nat} {t : Text} (h : s ∈ startsFrom n t) : n < s := by
  induction t generalizing n with
  | nil => simp [startsFrom] at h
  | cons c t ih =>
    rw [startsFrom] at h
    split at h
    · rcases List.mem_cons.1 h with rfl | h
      · omega
      · have := ih h
        omega
    · have := ih h
      omega

theorem linesUpTo_cons (s : Nat) (starts : List Nat) (offset : Int) :
    linesUpTo (s :: starts) offset
      = if (s : Int) ≤ offset then linesUpTo starts offset + 1 else 0 := by
  rw [linesUpTo, List.takeWhile_cons]
  by_cases h : (s : Int) ≤ offset
  · rw [if_pos h, if_pos (decide_eq_true h), List.length_cons, linesUpTo]
  · rw [if_neg h, if_neg (by simpa using h), List.length_nil]

/-- No line of a text starts at or before an offset that the text lies behind. -/
theorem linesUpTo_startsFrom_self (n : Nat) (t : Text) : linesUpTo (startsFrom n t) n = 0 := by
  cases h : startsFrom n t with
  | nil => rfl
  | cons s starts =>
    have hs : n < s := lt_of_mem_startsFrom (h ▸ List.mem_cons_self)
    rw [linesUpTo_cons, if_neg (by omega)]

/-- A line starts behind every line feed passed. -/
theorem linesUpTo_startsFrom (n k : Nat) (t : Text) :
    linesUpTo (startsFrom n t) ((n + k : Nat) : Int) = (t.take k).count '\n' := by
  induction t generalizing n k with
  | nil => simp [startsFrom, linesUpTo]
  | cons c t ih =>
    cases k with
    | zero => exact linesUpTo_startsFrom_self n (c :: t)
    | succ k =>
      have step := ih (n + 1) k
      rw [show n + 1 + k = n + (k + 1) by omega] at step
      rw [startsFrom, List.take_succ_cons]
      split
      · next hc =>
        rw [hc, List.count_cons_self, ← step, linesUpTo_cons, if_pos (by omega)]
      · next hc => rw [List.count_cons_of_ne hc, step]

/-- The line that an offset is on starts as far before it as the last line so far is long. -/
theorem getElem?_startsFrom (n k : Nat) (t : Text) :
    (n :: startsFrom n t)[(t.take k).count '\n']?
      = some (n + ((t.take k).length - (lastLine (t.take k)).length)) := by
  induction t generalizing n k with
  | nil => simp
  | cons c t ih =>
    cases k with
    | zero => simp
    | succ k =>
      have hl := length_lastLine_le (t.take k)
      rw [startsFrom, List.take_succ_cons]
      split
      · next hc =>
        subst hc
        rw [List.count_cons_self, List.getElem?_cons_succ, ih, lastLine_newline_cons,
          List.length_cons]
        exact congrArg some (by omega)
      · next hc =>
        rw [List.count_cons_of_ne hc]
        by_cases hm : '\n' ∈ t.take k
        · have hpos : 0 < (t.take k).count '\n' := List.count_pos_iff.2 hm
          obtain ⟨j, hj⟩ : ∃ j, (t.take k).count '\n' = j + 1 := ⟨_, (Nat.sub_add_cancel hpos).symm⟩
          have step := ih (n + 1) k
          rw [hj, List.getElem?_cons_succ] at step ⊢
          rw [step, lastLine_cons_of_mem c hm, List.length_cons]
          exact congrArg some (by omega)
        · have hm' : '\n' ∉ c :: t.take k := fun h =>
            (List.mem_cons.1 h).elim (fun e => hc e.symm) hm
          rw [List.count_eq_zero_of_not_mem hm, lastLine_of_notMem hm']
          simp

theorem linesUpTo_lineStarts (t : Text) (p : Nat) :
    linesUpTo t.lineStarts p = (t.take p).count '\n' + 1 := by
  have h := linesUpTo_startsFrom 0 p t
  rw [Nat.zero_add] at h
  rw [lineStarts, linesUpTo_cons, if_pos (by omega), h]

/-- **The line of an offset** counts the line feeds before it. -/
theorem line_position (t : Text) (p : Nat) :
    (position t.lineStarts p).line = (t.take p).count '\n' := by
  rw [position, linesUpTo_lineStarts]
  simp

theorem lineStart_lineStarts (t : Text) (p : Nat) :
    lineStart t.lineStarts p = (t.take p).length - (lastLine (t.take p)).length := by
  rw [lineStart, linesUpTo_lineStarts]
  simp only [lineStarts, getElem?_startsFrom, Option.getD_some, Nat.zero_add]

/-- **What stands between the start of the line and an offset** is the last line so far. -/
theorem slice_lineStart (t : Text) (p : Nat) :
    t.slice (lineStart t.lineStarts p) p = lastLine (t.take p) := by
  rw [slice_ofNat, lineStart_lineStarts]
  exact (List.suffix_iff_eq_drop.1 (lastLine_suffix _)).symm

/-! ## Columns in units -/

/-- The column of an offset, in UTF-16 units. -/
def unitColumn (t : Text) (p : Int) : Nat := unitLength (t.slice (lineStart t.lineStarts p) p)

theorem unitColumn_eq (t : Text) (p : Nat) : t.unitColumn p = unitLength (lastLine (t.take p)) := by
  rw [unitColumn, slice_lineStart]

/-- What lies between two offsets is put behind the prefix up to the first. -/
theorem take_append_slice (t : Text) {p q : Nat} (hpq : p ≤ q) :
    t.take p ++ t.slice p q = t.take q := by
  have hp : (t.take q).take p = t.take p := by rw [List.take_take, Nat.min_eq_left hpq]
  rw [slice_ofNat, ← hp, List.take_append_drop]

/-- Offsets with no line feed between them are on one line. -/
theorem count_take_of_notMem_slice {t : Text} {p q : Nat} (hpq : p ≤ q) (h : '\n' ∉ t.slice p q) :
    (t.take q).count '\n' = (t.take p).count '\n' := by
  rw [← take_append_slice t hpq, List.count_append, List.count_eq_zero_of_not_mem h, Nat.add_zero]

/-- **Columns add up along a line.** -/
theorem unitColumn_of_line_eq (t : Text) {p q : Nat} (hpq : p ≤ q)
    (h : (t.take q).count '\n' = (t.take p).count '\n') :
    t.unitColumn q = t.unitColumn p + unitLength (t.slice p q) := by
  have hn : '\n' ∉ t.slice p q := by
    rw [← take_append_slice t hpq, List.count_append] at h
    exact List.count_eq_zero.1 (by omega)
  rw [unitColumn_eq, unitColumn_eq, ← take_append_slice t hpq, unitLength_lastLine_append _ hn]

theorem unitColumn_of_notMem_slice {t : Text} {p q : Nat} (hpq : p ≤ q) (h : '\n' ∉ t.slice p q) :
    t.unitColumn q = t.unitColumn p + unitLength (t.slice p q) :=
  unitColumn_of_line_eq t hpq (count_take_of_notMem_slice hpq h)

end Sigil.Text
