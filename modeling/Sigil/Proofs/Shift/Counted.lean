import Sigil.Proofs.Shift.ByLine

/-!
# Proofs/Shift/Counted — the shifts of an edited text, counted from its characters

    line     line feeds in front of the edit
    column   units between the last of them and the edit

`Shift.byLine` walks through the sorted edits with a line, an offset and a column at hand and starts
again at every new line.  Counting all three anew for each edit gives the same (`byLine_counted`),
wherever the spans lie, over each other or behind the end of the text.
-/

namespace Sigil.Shift

variable {text : Text} {edits : List Edit}

/-! ## Groups -/

/-- The groups put one behind the other are the list again. -/
theorem flatMap_group (xs : List (Int × Shift)) :
    (group xs).flatMap (fun g => g.2) = xs.map fun x => x.2 := by
  induction xs with
  | nil => rfl
  | cons x xs ih =>
    rw [group, List.map_cons, ← ih]
    cases group xs with
    | nil => rfl
    | cons g more =>
      dsimp only
      split <;> rfl

/-- No group is empty. -/
theorem ne_nil_of_mem_group {xs : List (Int × Shift)} {g : Int × List Shift} (h : g ∈ group xs) :
    g.2 ≠ [] := by
  induction xs generalizing g with
  | nil => exact absurd h List.not_mem_nil
  | cons x xs ih =>
    rw [group] at h
    cases hxs : group xs with
    | nil =>
      rw [hxs] at h
      rw [List.mem_singleton.1 h]
      exact List.cons_ne_nil _ _
    | cons g' more =>
      simp only [hxs] at h ih
      split at h <;> rcases List.mem_cons.1 h with rfl | h
      · exact List.cons_ne_nil _ _
      · exact ih (List.mem_cons_of_mem _ h)
      · exact List.cons_ne_nil _ _
      · exact ih h

/-- **The groups of an ascending list** have keys that ascend strictly. -/
theorem pairwise_group {xs : List (Int × Shift)} (h : xs.Pairwise fun a b => a.1 ≤ b.1) :
    (group xs).Pairwise fun g g' => g.1 < g'.1 := by
  induction xs with
  | nil => exact .nil
  | cons x xs ih =>
    obtain ⟨hhead, htail⟩ := List.pairwise_cons.1 h
    have ih := ih htail
    cases xs with
    | nil => exact List.pairwise_singleton _ _
    | cons y ys =>
      have hle := hhead y List.mem_cons_self
      obtain ⟨ss, more, hg⟩ := group_cons_head y.1 y.2 ys
      rw [hg] at ih
      obtain ⟨hmore, hrest⟩ := List.pairwise_cons.1 ih
      rw [group, hg]
      dsimp only
      split
      · next hxy => exact List.pairwise_cons.2 ⟨fun g hg => hxy ▸ hmore g hg, hrest⟩
      · next hxy =>
        have hlt : x.1 < y.1 := Int.lt_iff_le_and_ne.2 ⟨hle, hxy⟩
        refine List.pairwise_cons.2 ⟨fun g hg => ?_, ih⟩
        rcases List.mem_cons.1 hg with rfl | hg
        · exact hlt
        · exact Int.lt_trans hlt (hmore g hg)

/-! ## Counting anew -/

/-- The line of an edit: how many line feeds stand in front of it. -/
def lineOf (text : Text) (e : Edit) : Int := ((text.take e.start.toNat).count '\n' : Nat)

/-- **The shift of an edit, counted anew**: its column from the last line feed in front of it. -/
def counted (text : Text) (e : Edit) : Shift where
  column := Text.unitLength (Text.lastLine (text.take e.start.toNat))
  originalLength := Text.unitLength ((text.take e.stop.toNat).drop e.start.toNat)
  newLength := Text.unitLength e.newText

theorem ofEdit_eq_counted {e : Edit} (h0 : 0 ≤ e.start) (hle : e.start ≤ e.stop) :
    ofEdit text e = (lineOf text e, counted text e) := by
  obtain ⟨p, hp⟩ := Int.eq_ofNat_of_zero_le h0
  obtain ⟨q, hq⟩ := Int.eq_ofNat_of_zero_le (Int.le_trans h0 hle)
  rw [ofEdit, lineOf, counted, hp, hq, Text.line_position, Text.unitColumn_eq, Text.slice_ofNat]
  rfl

/-- Along a line columns do not descend. -/
theorem pairwise_column (h0 : ∀ e ∈ edits, 0 ≤ e.start) (line : Int) :
    (onLine text edits line).Pairwise fun s t => s.column ≤ t.column := by
  rw [onLine_eq h0, select, List.pairwise_map, List.pairwise_filter, List.pairwise_map]
  refine (Edit.ascending_sorted edits).imp_of_mem fun {a b} ha hb hab hla hlb => ?_
  obtain ⟨p, hp⟩ := Int.eq_ofNat_of_zero_le (h0 a (List.mem_mergeSort.1 ha))
  obtain ⟨q, hq⟩ := Int.eq_ofNat_of_zero_le (h0 b (List.mem_mergeSort.1 hb))
  rw [hp, hq] at hab
  simp only [decide_eq_true_eq, ofEdit, hp, hq, Text.line_position] at hla hlb
  rw [ofEdit, ofEdit, hp, hq, Text.unitColumn_of_line_eq text (Int.ofNat_le.1 hab) (by omega)]
  exact Int.ofNat_le.2 (Nat.le_add_right _ _)

/-- A text of ASCII characters has as many units as characters. -/
theorem unitLength_of_ascii {t : Text} (h : ∀ c ∈ t, c.toNat < 0x80) :
    Text.unitLength t = t.length := by
  induction t with
  | nil => rfl
  | cons c t ih =>
    obtain ⟨hc, ht⟩ := List.forall_mem_cons.1 h
    rw [Text.unitLength_cons, ih ht, Text.unitWidth, if_neg (by omega), List.length_cons,
      Nat.add_comm]

/-- **The shifts of an edited text are counted from its characters.**  Let no edit run backwards or
start before the text.  The shifts of a line are those of the sorted edits with so many line feeds
in front of them, each with its units counted anew.  Every edit has its shift on one line, lines
ascend and none is there without an edit, and along a line columns do not descend.  Where all
characters are ASCII, units are characters. -/
theorem byLine_counted (text : Text) (h : ∀ e ∈ edits, 0 ≤ e.start ∧ e.start ≤ e.stop) :
    (∀ line, onLine text edits line
      = ((Edit.sorted edits).filter fun e => lineOf text e = line).map (counted text)) ∧
    (byLine text edits).flatMap (fun g => g.2) = (Edit.sorted edits).map (counted text) ∧
    (byLine text edits).Pairwise (fun g g' => g.1 < g'.1) ∧
    (∀ g ∈ byLine text edits, g.2 ≠ []) ∧
    (∀ line, (onLine text edits line).Pairwise fun s t => s.column ≤ t.column) ∧
    ∀ t : Text, (∀ c ∈ t, c.toNat < 0x80) → Text.unitLength t = t.length := by
  have h0 : ∀ e ∈ edits, 0 ≤ e.start := fun e he => (h e he).1
  have hcounted : (Edit.sorted edits).map (ofEdit text)
      = (Edit.sorted edits).map fun e => (lineOf text e, counted text e) :=
    List.map_congr_left fun e he => by
      have hspan := h e (List.mem_mergeSort.1 he)
      exact ofEdit_eq_counted hspan.1 hspan.2
  have hgroups := byLine_eq text h0
  refine ⟨fun line => ?_, ?_, ?_, fun g hg => ?_, pairwise_column h0,
    fun t => unitLength_of_ascii⟩
  · rw [onLine_eq h0, hcounted, select, List.filter_map, List.map_map]
    rfl
  · rw [hgroups, flatMap_group, hcounted, List.map_map]
    rfl
  · rw [hgroups]
    exact pairwise_group (pairwise_line_sorted text h0)
  · rw [hgroups] at hg
    exact ne_nil_of_mem_group hg

/-- Two spans over each other behind emoji on the second line, one of them past the end of the text,
and one that starts there. -/
def strayEdits : List Edit := [⟨8, 9, "é".toList⟩, ⟨4, 9, "$a".toList⟩, ⟨3, 5, "😀".toList⟩]

theorem byLine_counted_stray :
    onLine "😀\na😀b\n".toList strayEdits 1 = [⟨1, 3, 2⟩, ⟨3, 2, 2⟩] ∧
      onLine "😀\na😀b\n".toList strayEdits 2 = [⟨0, 0, 1⟩] ∧
      (byLine "😀\na😀b\n".toList strayEdits).flatMap (fun g => g.2)
        = [⟨1, 3, 2⟩, ⟨3, 2, 2⟩, ⟨0, 0, 1⟩] ∧
      (byLine "😀\na😀b\n".toList strayEdits).Pairwise (fun g g' => g.1 < g'.1) ∧
      (onLine "😀\na😀b\n".toList strayEdits 1).Pairwise (fun s t => s.column ≤ t.column) ∧
      Text.unitLength "$a".toList = List.length "$a".toList := by
  have h : ∀ e ∈ strayEdits, 0 ≤ e.start ∧ e.start ≤ e.stop := by decide
  obtain ⟨honLine, hall, hlines, -, hcolumns, hascii⟩ := byLine_counted "😀\na😀b\n".toList h
  have hsorted : Edit.sorted strayEdits
      = [⟨3, 5, "😀".toList⟩, ⟨4, 9, "$a".toList⟩, ⟨8, 9, "é".toList⟩] :=
    Edit.sorted_of_perm (List.reverse_perm strayEdits).symm (by decide)
  refine ⟨?_, ?_, ?_, hlines, hcolumns 1, hascii "$a".toList (by simp)⟩
  · rw [honLine 1, hsorted]
    rfl
  · rw [honLine 2, hsorted]
    rfl
  · rw [hall, hsorted]
    rfl

end Sigil.Shift
