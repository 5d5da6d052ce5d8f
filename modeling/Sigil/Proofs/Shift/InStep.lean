import Sigil.Proofs.Edit.Image
import Sigil.Proofs.Shift.ByLine

/-!
# Proofs/Shift/InStep — the edited text and the moved columns agree

`Edit.patch` replaces spans of characters, `Shift.adjust` moves columns of UTF-16 units, and neither
knows of the other.  The column of an offset's image is the adjusted column (`adjustFrom_shifts`),
as long as no edit touches a line feed.
-/

namespace Sigil

namespace Piece

/-- Neither side of the replacement has a line feed. -/
def Plain (p : Piece) : Prop := '\n' ∉ p.old ∧ '\n' ∉ p.new

/-- Where no edit touches a line feed, no piece does. -/
theorem plain_of_edits {tail : Text} {ps : List Piece}
    (hold : ∀ e ∈ edits 0 ps, '\n' ∉ (before tail ps).slice e.start e.stop)
    (hnew : ∀ e ∈ edits 0 ps, '\n' ∉ e.newText) : ∀ p ∈ ps, Plain p := fun p hp => by
  obtain ⟨e, he, hslice, htext⟩ := exists_edit [] tail hp
  exact ⟨hslice ▸ hold e he, htext ▸ hnew e he⟩

/-- As many line feeds stand before the image of an offset as before the offset. -/
theorem count_take_image {tail : Text} {ps : List Piece} (hp : ∀ p ∈ ps, Plain p) (q : Nat) :
    ((after tail ps).take (image ps q)).count '\n' = ((before tail ps).take q).count '\n' := by
  induction ps generalizing q with
  | nil => rfl
  | cons p ps ih =>
    obtain ⟨⟨hold, hnew⟩, hps⟩ := List.forall_mem_cons.1 hp
    rw [image]
    split
    · next h =>
      rw [take_after_add, take_before_of_width_le h]
      simp only [List.count_append, ih hps, List.count_eq_zero_of_not_mem hold,
        List.count_eq_zero_of_not_mem hnew]
    · next h =>
      rw [take_after_of_le (Nat.min_le_right _ _)]
      rcases Nat.le_total q p.kept.length with hq | hq
      · rw [Nat.min_eq_left hq, take_before_of_le hq]
      · -- the offset is in the replaced span, which has no line feed
        have hcut := take_before_of_inside tail ps hq (Nat.le_of_not_le h)
        have hpart : '\n' ∉ p.old.take (q - p.kept.length) :=
          fun hm => hold (List.mem_of_mem_take hm)
        rw [Nat.min_eq_right hq, List.take_length, hcut, List.count_append,
          List.count_eq_zero_of_not_mem hpart]
        rfl

/-! ## Where a column goes -/

/-- The shifts of the pieces of a text behind `u`, with their lines. -/
def shifts (u : Text) : List Piece → List (Int × Shift)
  | [] => []
  | p :: ps =>
    (((u ++ p.kept).count '\n' : Nat), ⟨Text.unitLength (Text.lastLine (u ++ p.kept)),
      Text.unitLength p.old, Text.unitLength p.new⟩) :: shifts (u ++ (p.kept ++ p.old)) ps

/-- The shifts of the pieces are the shifts of their edits. -/
theorem map_ofEdit_edits (u tail : Text) (ps : List Piece) :
    (edits u.length ps).map (Shift.ofEdit (u ++ before tail ps)) = shifts u ps := by
  induction ps generalizing u with
  | nil => rfl
  | cons p ps ih =>
    have hnext : u ++ before tail (p :: ps) = (u ++ (p.kept ++ p.old)) ++ before tail ps := by
      simp only [before, List.append_assoc]
    have hlen : u.length + p.width = (u ++ (p.kept ++ p.old)).length := by
      simp only [width, List.length_append]
    have hcut : (u ++ before tail (p :: ps)).take (u.length + p.kept.length) = u ++ p.kept := by
      rw [before, List.take_length_add_append, List.take_left]
    have hrest := ih (u ++ (p.kept ++ p.old))
    rw [← hnext, ← hlen] at hrest
    rw [edits, List.map_cons, hrest, shifts, Shift.ofEdit]
    simp only [Text.line_position, Text.unitColumn_eq, hcut, slice_old]

theorem count_le_of_mem_shifts {u : Text} {ps : List Piece} {x : Int × Shift}
    (h : x ∈ shifts u ps) : ((u.count '\n' : Nat) : Int) ≤ x.1 := by
  induction ps generalizing u with
  | nil => simp [shifts] at h
  | cons p ps ih =>
    rcases List.mem_cons.1 h with rfl | h
    · simp only [List.count_append]
      omega
    · have := ih h
      rw [List.count_append] at this
      omega

/-- How far the line that goes on behind `u` and `u'` with `x` has moved: not at all once `x` has
begun a new one. -/
def drift (u u' x : Text) : Int :=
  if '\n' ∈ x then 0
  else (Text.unitLength (Text.lastLine u') : Int) - Text.unitLength (Text.lastLine u)

theorem add_drift (u u' x : Text) :
    (Text.unitLength (Text.lastLine (u ++ x)) : Int) + drift u u' x
      = Text.unitLength (Text.lastLine (u' ++ x)) := by
  rw [drift]
  split
  · next h =>
    rw [Text.lastLine_append_of_mem u h, Text.lastLine_append_of_mem u' h]
    omega
  · next h =>
    rw [Text.unitLength_lastLine_append u h, Text.unitLength_lastLine_append u' h]
    omega

/-- Text without a line feed leaves the drift as it is. -/
theorem drift_append_of_notMem (u u' x : Text) {y : Text} (hy : '\n' ∉ y) :
    drift u u' (x ++ y) = drift u u' x := by
  have hiff : '\n' ∈ x ++ y ↔ '\n' ∈ x := by simp [hy]
  simp only [drift, hiff]

/-- A replacement adds its growth to the drift of the line. -/
theorem drift_replace (u u' : Text) {p : Piece} (hp : Plain p) {x : Text} (hx : '\n' ∉ x) :
    drift (u ++ (p.kept ++ p.old)) (u' ++ (p.kept ++ p.new)) x
      = drift u u' p.kept + (Text.unitLength p.new - Text.unitLength p.old) := by
  have h := add_drift u u' p.kept
  rw [drift, if_neg hx, ← List.append_assoc, ← List.append_assoc,
    Text.unitLength_lastLine_append _ hp.1, Text.unitLength_lastLine_append _ hp.2]
  omega

section

open Shift

variable {tail u u' : Text} {p : Piece} {ps : List Piece} {q : Nat} {moved : Int}

/-- In front of a replaced span, and of all later ones, columns move by the drift. -/
theorem adjustFrom_shifts_ahead (hq : q ≤ p.kept.length) (hw : q < p.width)
    (hmoved : moved = drift u u' (p.kept.take q)) :
    adjustFrom moved (Text.unitLength (Text.lastLine (u ++ p.kept.take q)))
        (select ((u ++ p.kept.take q).count '\n' : Nat) (shifts u (p :: ps)))
      = Text.unitLength (Text.lastLine (u' ++ p.kept.take q)) := by
  rw [← add_drift u u', ← hmoved, shifts, select_cons]
  have hkept : u ++ p.kept = u ++ p.kept.take q ++ p.kept.drop q := by
    rw [List.append_assoc, List.take_append_drop]
  have hcount : (u ++ p.kept).count '\n'
      = (u ++ p.kept.take q).count '\n' + (p.kept.drop q).count '\n' := by
    rw [hkept, List.count_append]
  by_cases hnl : '\n' ∈ p.kept.drop q
  · have hpos : 0 < (p.kept.drop q).count '\n' := List.count_pos_iff.2 hnl
    rw [if_neg (by omega), select_eq_nil fun x hx => ?_]
    · rfl
    · have := count_le_of_mem_shifts hx
      rw [← List.append_assoc, List.count_append] at this
      omega
  · have h0 : (p.kept.drop q).count '\n' = 0 := List.count_eq_zero_of_not_mem hnl
    have hcolumn : Text.unitLength (Text.lastLine (u ++ p.kept))
        = Text.unitLength (Text.lastLine (u ++ p.kept.take q))
          + Text.unitLength (p.kept.drop q) := by
      rw [hkept, Text.unitLength_lastLine_append _ hnl]
    have hlen := Text.length_le_unitLength (p.kept.drop q)
    have hlen' := Text.length_le_unitLength p.old
    rw [List.length_drop] at hlen
    simp only [width] at hw
    rw [if_pos (by omega), adjustFrom_ahead (by simp only; omega) (by simp only; omega)]

/-- Inside a replaced span columns fall back to the start of the replacement. -/
theorem adjustFrom_shifts_inside (hp : Plain p) (hq : p.kept.length < q) (hw : q < p.width)
    (hmoved : moved = drift u u' ((before tail (p :: ps)).take q)) :
    adjustFrom moved (Text.unitLength (Text.lastLine (u ++ (before tail (p :: ps)).take q)))
        (select ((u ++ (before tail (p :: ps)).take q).count '\n' : Nat) (shifts u (p :: ps)))
      = Text.unitLength (Text.lastLine (u' ++ p.kept)) := by
  have hcut := take_before_of_inside tail ps (Nat.le_of_lt hq) (Nat.le_of_lt hw)
  generalize hpart : p.old.take (q - p.kept.length) = part at hcut
  have hnl : '\n' ∉ part := fun hm => hp.1 (List.mem_of_mem_take (hpart ▸ hm))
  have h0 : part.count '\n' = 0 := List.count_eq_zero_of_not_mem hnl
  have hold : Text.unitLength p.old
      = Text.unitLength part + Text.unitLength (p.old.drop (q - p.kept.length)) := by
    rw [← hpart, ← Text.unitLength_append, List.take_append_drop]
  have hlen : part.length = min (q - p.kept.length) p.old.length := by
    rw [← hpart, List.length_take]
  have hpos := Text.length_le_unitLength part
  have hrest := Text.length_le_unitLength (p.old.drop (q - p.kept.length))
  rw [List.length_drop] at hrest
  simp only [width] at hw
  rw [hcut, drift_append_of_notMem _ _ _ hnl] at hmoved
  rw [hcut, shifts, select_cons, if_pos (by simp only [List.count_append]; omega),
    ← List.append_assoc, Text.unitLength_lastLine_append _ hnl,
    adjustFrom_inside (by simp only; omega) (by simp only; omega), hmoved]
  exact add_drift u u' p.kept

/-- **A column moves as its text does.**  `u` and `u'` have been passed in the two texts, `moved` is
how far the present line has drifted, and the offset `q` counts from there. -/
theorem adjustFrom_shifts (hp : ∀ p ∈ ps, Plain p)
    (hmoved : moved = drift u u' ((before tail ps).take q)) :
    adjustFrom moved (Text.unitLength (Text.lastLine (u ++ (before tail ps).take q)))
        (select ((u ++ (before tail ps).take q).count '\n' : Nat) (shifts u ps))
      = Text.unitLength (Text.lastLine (u' ++ (after tail ps).take (image ps q))) := by
  induction ps generalizing u u' q moved with
  | nil =>
    rw [hmoved]
    exact add_drift u u' (tail.take q)
  | cons p ps ih =>
    obtain ⟨hplain, hps⟩ := List.forall_mem_cons.1 hp
    have hold : p.old.count '\n' = 0 := List.count_eq_zero_of_not_mem hplain.1
    rw [image]
    split
    · -- the whole piece lies before the offset
      next hw =>
      rw [take_before_of_width_le hw] at hmoved ⊢
      rw [take_after_add, shifts, select_cons]
      generalize hT : (before tail ps).take (q - p.width) = T at *
      have ih := @ih (u ++ (p.kept ++ p.old)) (u' ++ (p.kept ++ p.new)) (q - p.width)
      rw [hT] at ih
      by_cases hnl : '\n' ∈ T
      · -- a new line has begun since: the shift belongs to an earlier one
        have hpos : 0 < T.count '\n' := List.count_pos_iff.2 hnl
        have hzero : moved = 0 := by rw [hmoved, drift, if_pos (List.mem_append_right _ hnl)]
        rw [if_neg (by simp only [List.count_append]; omega), ← List.append_assoc,
          ih hps (by rw [hzero, drift, if_pos hnl])]
        simp only [List.append_assoc]
      · have h0 : T.count '\n' = 0 := List.count_eq_zero_of_not_mem hnl
        have hpass : (Text.unitLength (Text.lastLine (u ++ p.kept)) : Int) + Text.unitLength p.old
            ≤ Text.unitLength (Text.lastLine (u ++ (p.kept ++ p.old ++ T))) := by
          rw [← List.append_assoc, ← List.append_assoc, Text.unitLength_lastLine_append _ hnl,
            Text.unitLength_lastLine_append _ hplain.1]
          omega
        rw [if_pos (by simp only [List.count_append]; omega), adjustFrom_passed hpass,
          ← List.append_assoc, ih hps ?_]
        · simp only [List.append_assoc]
        · rw [hmoved, drift_replace u u' hplain hnl, drift_append_of_notMem _ _ _ hnl,
            drift_append_of_notMem _ _ _ hplain.1]
          rfl
    · next hw =>
      rw [take_after_of_le (Nat.min_le_right _ _)]
      rcases Nat.lt_or_ge p.kept.length q with hq | hq
      · rw [adjustFrom_shifts_inside hplain hq (Nat.lt_of_not_le hw) hmoved,
          Nat.min_eq_right (Nat.le_of_lt hq), List.take_length]
      · rw [take_before_of_le hq] at hmoved ⊢
        rw [adjustFrom_shifts_ahead hq (Nat.lt_of_not_le hw) hmoved, Nat.min_eq_left hq]

end

/-- An offset and its image are on the same line. -/
theorem line_image {tail : Text} {ps : List Piece} (hp : ∀ p ∈ ps, Plain p) (q : Nat) :
    (Text.position (after tail ps).lineStarts (image ps q)).line
      = (Text.position (before tail ps).lineStarts q).line := by
  rw [Text.line_position, Text.line_position, count_take_image hp]

/-- The column of an offset's image is the adjusted column. -/
theorem unitColumn_image {tail : Text} {ps : List Piece} (hp : ∀ p ∈ ps, Plain p) (q : Nat) :
    (after tail ps).unitColumn (image ps q) = Shift.adjust ((before tail ps).unitColumn q)
      (Shift.select (Text.position (before tail ps).lineStarts q).line (shifts [] ps)) := by
  have hstart : (0 : Int) = drift [] [] ((before tail ps).take q) := by simp [drift]
  rw [Text.line_position, Text.unitColumn_eq, Text.unitColumn_eq]
  exact (adjustFrom_shifts hp hstart).symm

end Piece

open Text in
/-- **Text and columns stay in step.**  Let edits that touch no line feed be accepted for a text.
An offset that lies strictly inside no span stays on its line, and its column in the edited text is
its column before, adjusted by the shifts of the line.  An offset strictly inside a span adjusts to
the column at which the span's replacement starts. -/
theorem unitColumn_patch {code out : Text} {edits : List Edit}
    (h : Edit.patch code edits = .ok out)
    (hold : ∀ e ∈ edits, '\n' ∉ code.slice e.start e.stop) (hnew : ∀ e ∈ edits, '\n' ∉ e.newText)
    {p : Nat} (hp : p ≤ code.length) :
    ((∀ e ∈ edits, ¬(e.start < p ∧ (p : Int) < e.stop)) →
      0 ≤ Edit.moved edits p ∧ Edit.moved edits p ≤ out.length ∧
      (position out.lineStarts (Edit.moved edits p)).line = (position code.lineStarts p).line ∧
      out.unitColumn (Edit.moved edits p) = Shift.adjust (code.unitColumn p)
        (Shift.onLine code edits (position code.lineStarts p).line)) ∧
    ∀ e ∈ edits, e.start < p → (p : Int) < e.stop →
      out.slice (Edit.moved edits e.start) (Edit.moved edits e.start + e.newText.length)
        = e.newText ∧
      (position out.lineStarts (Edit.moved edits e.start)).line
        = (position code.lineStarts p).line ∧
      out.unitColumn (Edit.moved edits e.start) = Shift.adjust (code.unitColumn p)
        (Shift.onLine code edits (position code.lineStarts p).line) := by
  obtain ⟨ps, tail, rfl, hsorted, rfl⟩ := Piece.patch_eq_ok_iff.1 h
  have hperm : (Edit.sorted edits).Perm edits := List.mergeSort_perm _ _
  have hmem : ∀ e, e ∈ edits ↔ e ∈ Piece.edits 0 ps := fun e => by
    rw [← hsorted, hperm.mem_iff]
  have hgrowth : ∀ q, Edit.growthUpTo edits q = Edit.growthUpTo (Piece.edits 0 ps) q := fun q => by
    rw [← hsorted, Edit.growthUpTo_perm hperm]
  have hplain : ∀ p ∈ ps, Piece.Plain p := fun p hp => by
    obtain ⟨e, he, hslice, htext⟩ := Piece.exists_edit [] tail hp
    exact ⟨hslice ▸ hold e ((hmem e).2 he), htext ▸ hnew e ((hmem e).2 he)⟩
  have h0 : ∀ e ∈ edits, 0 ≤ e.start := fun e he => (Piece.mem_edits ((hmem e).1 he)).1
  -- both parts speak of the offset's image
  have hline : (position (Piece.after tail ps).lineStarts (Piece.image ps p)).line
      = (position (Piece.before tail ps).lineStarts p).line := Piece.line_image hplain p
  have hcolumn : (Piece.after tail ps).unitColumn (Piece.image ps p)
      = Shift.adjust ((Piece.before tail ps).unitColumn p)
        (Shift.onLine (Piece.before tail ps) edits
          (position (Piece.before tail ps).lineStarts p).line) := by
    have hshifts : (Piece.edits 0 ps).map (Shift.ofEdit (Piece.before tail ps))
        = Piece.shifts [] ps := Piece.map_ofEdit_edits [] tail ps
    rw [Shift.onLine_eq h0, hsorted, hshifts]
    exact Piece.unitColumn_image hplain p
  refine ⟨fun houtside => ?_, fun e he hstart hstop => ?_⟩
  · have himage : Edit.moved edits p = Piece.image ps p := by
      rw [Edit.moved, hgrowth, Piece.image_eq_add_growthUpTo (n := 0) fun e he => ?_, Nat.zero_add]
      rw [Nat.zero_add]
      exact houtside e ((hmem e).2 he)
    rw [himage]
    exact ⟨Int.natCast_nonneg _, Int.ofNat_le.2 (Piece.image_le hp), hline, hcolumn⟩
  · have hpiece := (hmem e).1 he
    have himage : Edit.moved edits e.start = Piece.image ps p := by
      have h := Piece.image_eq_of_inside (q := p) hpiece (by omega) (by omega)
      rw [Edit.moved, hgrowth]
      omega
    refine ⟨?_, by rw [himage, hline], by rw [himage, hcolumn]⟩
    obtain ⟨a, b, hafter, hlen⟩ := Piece.exists_replacement tail hpiece (Int.lt_trans hstart hstop)
    have hmoved : Edit.moved edits e.start = a.length := by
      rw [Edit.moved, hgrowth]
      omega
    rw [hmoved, hafter]
    exact Piece.slice_append a e.newText b

/-- Two edits behind emoji on the second line, the later one given first: the offset behind both is
in column 8 before and 9 after, and the one in column 3, inside the first span, goes to column 2. -/
theorem unitColumn_patch_emoji :
    Edit.patch "😀\n😀#ab+#c;".toList [⟨7, 9, "$ccc".toList⟩, ⟨3, 6, "$a".toList⟩]
        = .ok "😀\n😀$a+$ccc;".toList ∧
      Text.unitColumn "😀\n😀#ab+#c;".toList (9 : Nat) = 8 ∧
      Text.unitColumn "😀\n😀$a+$ccc;".toList
        (Edit.moved [⟨7, 9, "$ccc".toList⟩, ⟨3, 6, "$a".toList⟩] (9 : Nat)) = 9 ∧
      Text.unitColumn "😀\n😀#ab+#c;".toList (4 : Nat) = 3 ∧
      Text.unitColumn "😀\n😀$a+$ccc;".toList
        (Edit.moved [⟨7, 9, "$ccc".toList⟩, ⟨3, 6, "$a".toList⟩] 3) = 2 := by
  have h : Edit.patch "😀\n😀#ab+#c;".toList [⟨7, 9, "$ccc".toList⟩, ⟨3, 6, "$a".toList⟩]
      = .ok "😀\n😀$a+$ccc;".toList := by
    rw [Edit.patch, Edit.sorted_of_perm (.swap _ _ _) (by decide)]
    rfl
  have hold : ∀ e ∈ ([⟨7, 9, "$ccc".toList⟩, ⟨3, 6, "$a".toList⟩] : List Edit),
      '\n' ∉ Text.slice "😀\n😀#ab+#c;".toList e.start e.stop := by decide
  have hnew : ∀ e ∈ ([⟨7, 9, "$ccc".toList⟩, ⟨3, 6, "$a".toList⟩] : List Edit),
      '\n' ∉ e.newText := by decide
  obtain ⟨-, -, -, hbehind⟩ := (unitColumn_patch h hold hnew (p := 9) (by decide)).1 (by decide)
  obtain ⟨-, -, hinside⟩ := (unitColumn_patch h hold hnew (p := 4) (by decide)).2
    ⟨3, 6, "$a".toList⟩ (by decide) (by decide) (by decide)
  have hshifts : Shift.onLine "😀\n😀#ab+#c;".toList
      [⟨7, 9, "$ccc".toList⟩, ⟨3, 6, "$a".toList⟩] 1 = [⟨2, 3, 2⟩, ⟨6, 2, 4⟩] := by
    rw [Shift.onLine, Shift.byLine, Edit.sorted_of_perm (.swap _ _ _) (by decide)]
    rfl
  refine ⟨h, rfl, Int.ofNat_inj.1 (hbehind.trans ?_), rfl, Int.ofNat_inj.1 (hinside.trans ?_)⟩
  · exact congrArg (Shift.adjust 8) hshifts
  · exact congrArg (Shift.adjust 3) hshifts

end Sigil
