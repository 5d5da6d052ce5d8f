import Sigil.Proofs.Edit.Undo
import Sigil.Proofs.Shift.InStep
import Sigil.Proofs.Shift.Monotone

/-!
# Proofs/Shift/Undo — columns are moved back

    c ──adjust──▸ c′ ──adjust, taking back──▸ c

The shifts that take back the shifts of a line are those of the edits that take back its edits
(`onLine_undo`).  They move every column back to where it was, except inside a replaced span: there
the way forth forgets the column, and the way back leads to the start of the span.
-/

namespace Sigil

namespace Shift

/-- The shifts that take shifts back, on a line that has already moved by so much. -/
def undoFrom (moved : Int) : List Shift → List Shift
  | [] => []
  | s :: ss =>
    ⟨s.column + moved, s.newLength, s.originalLength⟩ :: undoFrom (moved + s.growth) ss

/-- The column to which a column comes by some shifts and those that take them back. -/
def roundTrip (moved column : Int) (ss : List Shift) : Int :=
  adjustFrom (-moved) (adjustFrom moved column ss) (undoFrom moved ss)

variable {s : Shift} {ss : List Shift} {c : Int} (moved : Int)

/-- A span that was passed on the way forth is passed on the way back. -/
theorem roundTrip_passed (h : InOrder (s :: ss)) (hc : s.column + s.originalLength ≤ c) :
    roundTrip moved c (s :: ss) = roundTrip (moved + s.growth) c ss := by
  have hpassed := le_adjustFrom_passed moved h hc
  have hback : -moved + growth ⟨s.column + moved, s.newLength, s.originalLength⟩
      = -(moved + s.growth) := by
    simp only [growth]
    omega
  rw [roundTrip, undoFrom, adjustFrom_passed (by simp only; omega), adjustFrom_passed hc, hback,
    roundTrip]

/-- **A column that lies strictly inside no span comes back to where it was.** -/
theorem roundTrip_of_clear (h : InOrder ss) (hnew : ∀ s ∈ ss, 0 < s.newLength)
    (hc : ∀ s ∈ ss, c ≤ s.column ∨ s.column + s.originalLength ≤ c) :
    roundTrip moved c ss = c := by
  induction ss generalizing moved with
  | nil => simp only [roundTrip, undoFrom, adjustFrom, Int.add_neg_cancel_right]
  | cons s ss ih =>
    obtain ⟨hcs, hc⟩ := List.forall_mem_cons.1 hc
    obtain ⟨hs, hnew⟩ := List.forall_mem_cons.1 hnew
    by_cases hpass : s.column + s.originalLength ≤ c
    · rw [roundTrip_passed moved h hpass, ih _ h.tail hnew hc]
    · have hahead := hcs.resolve_right hpass
      rw [roundTrip, undoFrom, adjustFrom_ahead hahead (Int.not_le.1 hpass),
        adjustFrom_ahead (by simp only; omega) (by simp only; omega), Int.add_neg_cancel_right]

/-- **A column strictly inside a span comes back to the start of the span.** -/
theorem roundTrip_of_inside (h : InOrder ss) (hnew : ∀ s ∈ ss, 0 < s.newLength) (hs : s ∈ ss)
    (hc : s.column < c) (hc' : c < s.column + s.originalLength) :
    roundTrip moved c ss = s.column := by
  induction ss generalizing moved with
  | nil => exact absurd hs List.not_mem_nil
  | cons t ss ih =>
    rcases List.mem_cons.1 hs with rfl | hs
    · have hpos := hnew s List.mem_cons_self
      rw [roundTrip, undoFrom, adjustFrom_inside hc hc',
        adjustFrom_ahead (by simp only; omega) (by simp only; omega), Int.add_neg_cancel_right]
    · have hpass : t.column + t.originalLength ≤ c :=
        Int.le_of_lt (Int.lt_of_le_of_lt (h.behind s hs) hc)
      rw [roundTrip_passed moved h hpass]
      exact ih _ h.tail (fun u hu => hnew u (List.mem_cons_of_mem _ hu)) hs

end Shift

namespace Piece

open Shift

/-- **The flipped pieces have the shifts that take back.**  `u` and `u'` have been passed in the two
texts, and `moved` is how far the line has drifted wherever it is reached. -/
theorem select_shifts_flip {ps : List Piece} (hp : ∀ p ∈ ps, Plain p) {u u' : Text}
    {line moved : Int} (hcount : u'.count '\n' = u.count '\n')
    (hmoved : ∀ x, (((u ++ x).count '\n' : Nat) : Int) = line → moved = drift u u' x) :
    select line (shifts u' (ps.map flip)) = undoFrom moved (select line (shifts u ps)) := by
  induction ps generalizing u u' moved with
  | nil => rfl
  | cons p ps ih =>
    obtain ⟨hplain, hps⟩ := List.forall_mem_cons.1 hp
    have hold : p.old.count '\n' = 0 := List.count_eq_zero_of_not_mem hplain.1
    have hnew : p.new.count '\n' = 0 := List.count_eq_zero_of_not_mem hplain.2
    have hcount' : (u' ++ (p.kept ++ p.new)).count '\n' = (u ++ (p.kept ++ p.old)).count '\n' := by
      simp only [List.count_append]
      omega
    have hline : (u' ++ p.kept).count '\n' = (u ++ p.kept).count '\n' := by
      simp only [List.count_append]
      omega
    rw [List.map_cons, shifts, shifts, select_cons, select_cons]
    simp only [flip, hline]
    split
    · -- the span lies on the line, and so does what follows it up to a line feed
      next hl =>
      have hdrift := hmoved p.kept hl
      rw [undoFrom, ← add_drift u u', ← hdrift]
      refine congrArg _ (ih hps hcount' fun x hx => ?_)
      have hx : '\n' ∉ x := fun hm => by
        have hpos : 0 < x.count '\n' := List.count_pos_iff.2 hm
        simp only [List.count_append] at hx hl
        omega
      rw [drift_replace u u' hplain hx, ← hdrift]
      rfl
    · -- the line is another one: where it is reached behind the span, it has not drifted
      next hl =>
      refine ih hps hcount' fun x hx => ?_
      have hm : '\n' ∈ x := by
        by_contra hm
        have h0 : x.count '\n' = 0 := List.count_eq_zero_of_not_mem hm
        simp only [List.count_append] at hx hl
        omega
      rw [hmoved (p.kept ++ p.old ++ x) (by rw [← hx]; simp only [List.count_append]; omega), drift,
        drift, if_pos hm, if_pos (List.mem_append_right _ hm)]

end Piece

namespace Shift

/-- **The shifts that edits taken back have on a line** take back those of the edits. -/
theorem onLine_undo {code out : Text} {edits : List Edit} (hsorted : Edit.sorted edits = edits)
    (h : Edit.patch code edits = .ok out) (hold : ∀ e ∈ edits, '\n' ∉ code.slice e.start e.stop)
    (hnew : ∀ e ∈ edits, '\n' ∉ e.newText) (line : Int) :
    onLine out (Edit.undo code edits) line = undoFrom 0 (onLine code edits line) := by
  obtain ⟨ps, tail, rfl, hes, rfl⟩ := Piece.patch_eq_ok_iff.1 h
  rw [hsorted] at hes
  subst hes
  have hplain := Piece.plain_of_edits hold hnew
  have hundo : Edit.undo (Piece.before tail ps) (Piece.edits 0 ps)
      = Piece.edits 0 (ps.map Piece.flip) := Piece.undoFrom_edits [] tail 0 ps
  have hforth := Piece.map_ofEdit_edits [] tail ps
  have hback := Piece.map_ofEdit_edits [] tail (ps.map Piece.flip)
  rw [Piece.before_flip] at hback
  rw [onLine_eq fun e he => (Piece.mem_edits he).1, hsorted, hundo,
    onLine_eq fun e he => (Piece.mem_edits he).1, Piece.sorted_edits]
  refine (congrArg (select line) hback).trans ?_
  rw [Piece.select_shifts_flip hplain rfl fun x _ => ?_]
  · exact congrArg _ (congrArg (select line) hforth.symm)
  · simp [Piece.drift]

end Shift

end Sigil
