import Sigil.Proofs.Edit.InOrder
import Sigil.Proofs.Edit.Pieces

/-!
# Proofs/Edit/Undo — edits are taken back by edits

    text   kept₁ old₁ kept₂ old₂ … tail
    after  kept₁ new₁ kept₂ new₂ … tail

Read from the second row to the first, a cut into pieces gives the edits of the edited text that
bring the old text back.  Their spans stand where the replacements have come to stand, each moved by
what the edits in front of it have grown (`undo`).
-/

namespace Sigil

namespace Edit

/-- The edits that take edits back, in a text that has already grown by so much. -/
def undoFrom (code : Text) (grown : Int) : List Edit → List Edit
  | [] => []
  | e :: edits =>
    ⟨e.start + grown, e.start + grown + e.newText.length, code.slice e.start e.stop⟩ ::
      undoFrom code (grown + e.growth) edits

/-- **The edits that take edits back**: each puts what a span held in the place of its
replacement. -/
def undo (code : Text) (edits : List Edit) : List Edit := undoFrom code 0 edits

theorem undo_ne_nil (code : Text) {edits : List Edit} (h : edits ≠ []) : undo code edits ≠ [] := by
  cases edits with
  | nil => exact absurd rfl h
  | cons e edits => exact List.cons_ne_nil _ _

end Edit

namespace Piece

/-- The piece that puts back what a piece replaces. -/
def flip (p : Piece) : Piece := ⟨p.kept, p.new, p.old⟩

theorem before_flip (tail : Text) (ps : List Piece) :
    before tail (ps.map flip) = after tail ps := by
  induction ps with
  | nil => rfl
  | cons p ps ih => rw [List.map_cons, before, ih, after, flip]

theorem after_flip (tail : Text) (ps : List Piece) :
    after tail (ps.map flip) = before tail ps := by
  induction ps with
  | nil => rfl
  | cons p ps ih => rw [List.map_cons, after, ih, before, flip]

/-- **Taking back goes by the flipped pieces.**  `u` has been passed in the text, and `n` characters
of the edited text. -/
theorem undoFrom_edits (u tail : Text) (n : Nat) (ps : List Piece) :
    Edit.undoFrom (u ++ before tail ps) ((n : Int) - u.length) (edits u.length ps)
      = edits n (ps.map flip) := by
  induction ps generalizing u n with
  | nil => rfl
  | cons p ps ih =>
    have hnext : u ++ before tail (p :: ps) = (u ++ (p.kept ++ p.old)) ++ before tail ps := by
      simp only [before, List.append_assoc]
    have hlen : u.length + p.width = (u ++ (p.kept ++ p.old)).length := by
      simp only [width, List.length_append]
    have hrest := ih (u ++ (p.kept ++ p.old)) (n + p.flip.width)
    rw [← hnext, ← hlen] at hrest
    have hgrown : (n : Int) - u.length
        + Edit.growth ⟨(u.length + p.kept.length : Nat), (u.length + p.width : Nat), p.new⟩
        = (n + p.flip.width : Nat) - (u.length + p.width : Nat) := by
      simp only [Edit.growth, Edit.originalLength, width, flip]
      omega
    have hhead : (⟨(u.length + p.kept.length : Nat) + ((n : Int) - u.length),
        (u.length + p.kept.length : Nat) + ((n : Int) - u.length) + p.new.length, p.old⟩ : Edit)
        = ⟨(n + p.flip.kept.length : Nat), (n + p.flip.width : Nat), p.flip.new⟩ := by
      simp only [Edit.mk.injEq, flip, width, and_true]
      omega
    rw [edits, Edit.undoFrom, slice_old, hgrown, hrest, hhead, List.map_cons, edits]

/-- The edits of pieces are sorted. -/
theorem sorted_edits (ps : List Piece) : Edit.sorted (edits 0 ps) = edits 0 ps := by
  have h := patchFrom_edits [] [] ps
  exact (Edit.InOrder.of_patchFrom (Int.natCast_nonneg _) h).sorted_eq_self

end Piece

namespace Edit

/-- **Edits are taken back.** -/
theorem patch_undo {code out : Text} {edits : List Edit} (hsorted : sorted edits = edits)
    (h : patch code edits = .ok out) : patch out (undo code edits) = .ok code := by
  obtain ⟨ps, tail, rfl, hes, rfl⟩ := Piece.patch_eq_ok_iff.1 h
  have hundo : undo (Piece.before tail ps) edits = Piece.edits 0 (ps.map Piece.flip) := by
    rw [← hsorted, hes]
    exact Piece.undoFrom_edits [] tail 0 ps
  refine Piece.patch_eq_ok_iff.2
    ⟨ps.map Piece.flip, tail, (Piece.before_flip tail ps).symm, ?_, (Piece.after_flip tail ps).symm⟩
  rw [hundo, Piece.sorted_edits]

end Edit

end Sigil
