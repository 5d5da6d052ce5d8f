import Mathlib.Algebra.BigOperators.Group.List.Basic
import Mathlib.Algebra.Order.Ring.Int
import Sigil.Proofs.Edit.Pieces

/-!
# Proofs/Edit/Image — where edits move the offsets of a text

`Piece.image` follows an offset through the pieces.  Outside the spans it moves by the growth of the
edits that end before it (`image_eq_add_growthUpTo`); inside a span it falls back to the start of
the replacement (`image_eq_of_inside`).
-/

namespace Sigil

namespace Piece

/-! ## Where an offset goes -/

/-- **The offset to which an offset goes.**  Inside a replaced span it falls back to the start of
the replacement. -/
def image : List Piece → Nat → Nat
  | [], q => q
  | p :: ps, q =>
    if p.width ≤ q then p.newWidth + image ps (q - p.width) else min q p.kept.length

theorem length_before_cons (tail : Text) (p : Piece) (ps : List Piece) :
    (before tail (p :: ps)).length = p.width + (before tail ps).length := by
  simp only [before, width, List.length_append]
  omega

theorem length_after_cons (tail : Text) (p : Piece) (ps : List Piece) :
    (after tail (p :: ps)).length = p.newWidth + (after tail ps).length := by
  simp only [after, newWidth, List.length_append]
  omega

/-- Offsets of the text go to offsets of the edited text. -/
theorem image_le {tail : Text} {ps : List Piece} {q : Nat} (hq : q ≤ (before tail ps).length) :
    image ps q ≤ (after tail ps).length := by
  induction ps generalizing q with
  | nil => exact hq
  | cons p ps ih =>
    rw [length_before_cons] at hq
    rw [image, length_after_cons]
    split
    · have := ih (q := q - p.width) (by omega)
      omega
    · simp only [newWidth]
      omega

/-! ## Cutting at an offset and at its image -/

theorem take_before_of_le {tail : Text} {p : Piece} {ps : List Piece} {q : Nat}
    (h : q ≤ p.kept.length) : (before tail (p :: ps)).take q = p.kept.take q := by
  rw [before, List.take_append_of_le_length h]

theorem take_before_of_width_le {tail : Text} {p : Piece} {ps : List Piece} {q : Nat}
    (h : p.width ≤ q) : (before tail (p :: ps)).take q
      = p.kept ++ p.old ++ (before tail ps).take (q - p.width) := by
  have hw : (p.kept ++ p.old).length = p.width := by rw [List.length_append, width]
  obtain ⟨r, rfl⟩ := Nat.exists_eq_add_of_le h
  rw [before, ← List.append_assoc, Nat.add_sub_cancel_left, ← hw, List.take_length_add_append]

theorem take_before_of_inside (tail : Text) {p : Piece} (ps : List Piece) {q : Nat}
    (h : p.kept.length ≤ q) (h' : q ≤ p.width) :
    (before tail (p :: ps)).take q = p.kept ++ p.old.take (q - p.kept.length) := by
  rw [width] at h'
  rw [before, List.take_append, List.take_of_length_le h,
    List.take_append_of_le_length (by omega)]

theorem take_after_of_le {tail : Text} {p : Piece} {ps : List Piece} {q : Nat}
    (h : q ≤ p.kept.length) : (after tail (p :: ps)).take q = p.kept.take q := by
  rw [after, List.take_append_of_le_length h]

theorem take_after_add {tail : Text} {p : Piece} {ps : List Piece} {r : Nat} :
    (after tail (p :: ps)).take (p.newWidth + r)
      = p.kept ++ p.new ++ (after tail ps).take r := by
  have hw : (p.kept ++ p.new).length = p.newWidth := by rw [List.length_append, newWidth]
  rw [after, ← List.append_assoc, ← hw, List.take_length_add_append]

end Piece

namespace Edit

/-! ## Growth of the edits before an offset -/

/-- How much longer the edits that end at or before an offset make the text. -/
def growthUpTo (edits : List Edit) (p : Int) : Int :=
  ((edits.filter fun e => e.stop ≤ p).map growth).sum

theorem growthUpTo_cons (e : Edit) (edits : List Edit) (p : Int) :
    growthUpTo (e :: edits) p
      = if e.stop ≤ p then e.growth + growthUpTo edits p else growthUpTo edits p := by
  rw [growthUpTo, List.filter_cons]
  by_cases h : e.stop ≤ p <;> simp [h, growthUpTo]

theorem growthUpTo_eq_zero {edits : List Edit} {p : Int} (h : ∀ e ∈ edits, p < e.stop) :
    growthUpTo edits p = 0 := by
  rw [growthUpTo, List.filter_eq_nil_iff.2 fun e he => by simpa using h e he]
  rfl

/-- The order of the edits does not matter. -/
theorem growthUpTo_perm {edits edits' : List Edit} (h : edits.Perm edits') (p : Int) :
    growthUpTo edits p = growthUpTo edits' p :=
  ((h.filter _).map _).sum_eq

/-- Where an offset lies in the edited text. -/
def moved (edits : List Edit) (p : Int) : Int := p + growthUpTo edits p

end Edit

namespace Piece

/-- **Outside the spans** an offset moves by the growth of the edits before it. -/
theorem image_eq_add_growthUpTo {n : Nat} {ps : List Piece} {q : Nat}
    (h : ∀ e ∈ edits n ps, ¬(e.start < (n + q : Nat) ∧ ((n + q : Nat) : Int) < e.stop)) :
    (image ps q : Int) = q + Edit.growthUpTo (edits n ps) (n + q : Nat) := by
  induction ps generalizing n q with
  | nil => simp [image, edits, Edit.growthUpTo]
  | cons p ps ih =>
    obtain ⟨hhead, hrest⟩ := List.forall_mem_cons.1 h
    rw [image, edits, Edit.growthUpTo_cons]
    simp only at hhead ⊢
    split
    · next hw =>
      obtain ⟨r, rfl⟩ := Nat.exists_eq_add_of_le hw
      have ih := @ih (n + p.width) r
      rw [Nat.add_assoc] at ih
      rw [if_pos (by omega), Nat.add_sub_cancel_left, Int.natCast_add, ih hrest]
      simp only [Edit.growth, Edit.originalLength, newWidth, width]
      omega
    · next hw =>
      simp only [width] at hw hhead
      rw [if_neg (by simp only [width]; omega), Edit.growthUpTo_eq_zero fun e he => ?_]
      · omega
      · have := mem_edits he
        simp only [width] at this
        omega

/-- The same for a whole text: an offset goes where the edits move it, in whatever order they
come. -/
theorem moved_eq_image {es : List Edit} {ps : List Piece} {q : Nat} (hperm : (edits 0 ps).Perm es)
    (h : ∀ e ∈ es, ¬(e.start < q ∧ (q : Int) < e.stop)) : Edit.moved es q = image ps q := by
  have himage := @image_eq_add_growthUpTo 0 ps q
  rw [Nat.zero_add] at himage
  rw [Edit.moved, ← Edit.growthUpTo_perm hperm, himage fun e he => h e (hperm.mem_iff.1 he)]

/-- **Inside a span** an offset goes where the start of the span goes. -/
theorem image_eq_of_inside {n : Nat} {ps : List Piece} {q : Nat} {e : Edit} (he : e ∈ edits n ps)
    (h : e.start < (n + q : Nat)) (h' : ((n + q : Nat) : Int) < e.stop) :
    (n + image ps q : Int) = e.start + Edit.growthUpTo (edits n ps) e.start := by
  induction ps generalizing n q with
  | nil => simp [edits] at he
  | cons p ps ih =>
    have hwidth : p.width = p.kept.length + p.old.length := rfl
    rw [edits] at he ⊢
    rw [image, Edit.growthUpTo_cons]
    rcases List.mem_cons.1 he with rfl | he
    · simp only at h h' ⊢
      rw [if_neg (by omega), if_neg (by omega), Edit.growthUpTo_eq_zero fun e he => ?_]
      · omega
      · have := mem_edits he
        omega
    · have hbound := mem_edits he
      obtain ⟨r, rfl⟩ := Nat.exists_eq_add_of_le (show p.width ≤ q by omega)
      have ih := @ih (n + p.width) r he (by omega) (by omega)
      rw [if_pos (Nat.le_add_right _ _), if_pos hbound.1, Nat.add_sub_cancel_left]
      simp only [Edit.growth, Edit.originalLength, newWidth, width] at ih ⊢
      omega

/-- **The replacement of a span** stands where the start of the span goes. -/
theorem exists_replacement (tail : Text) {n : Nat} {ps : List Piece} {e : Edit}
    (he : e ∈ edits n ps) (hne : e.start < e.stop) :
    ∃ a b, after tail ps = a ++ (e.newText ++ b) ∧
      (n + a.length : Int) = e.start + Edit.growthUpTo (edits n ps) e.start := by
  induction ps generalizing n with
  | nil => simp [edits] at he
  | cons p ps ih =>
    have hwidth : p.width = p.kept.length + p.old.length := rfl
    rw [edits] at he ⊢
    rw [Edit.growthUpTo_cons]
    rcases List.mem_cons.1 he with rfl | he
    · simp only at hne ⊢
      refine ⟨p.kept, after tail ps, rfl, ?_⟩
      rw [if_neg (by omega), Edit.growthUpTo_eq_zero fun e he => ?_]
      · omega
      · have := mem_edits he
        omega
    · obtain ⟨a, b, hafter, hlen⟩ := ih he
      refine ⟨p.kept ++ (p.new ++ a), b, ?_, ?_⟩
      · rw [after, hafter]
        simp only [List.append_assoc]
      · rw [if_pos (mem_edits he).1]
        simp only [List.length_append, Edit.growth, Edit.originalLength]
        omega

end Piece

end Sigil
