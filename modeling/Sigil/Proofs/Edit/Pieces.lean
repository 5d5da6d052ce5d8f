import Sigil.Edit
import Sigil.Proofs.Sorting

/-!
# Proofs/Edit/Pieces — accepted edits cut the text into pieces

    text   kept₁ old₁ kept₂ old₂ … tail
    after  kept₁ new₁ kept₂ new₂ … tail

A list of edits fits a text exactly when, sorted, it is read off such a cut; the edited text is then
the second row (`patch_eq_ok_iff`).  What edits do to texts and offsets is proved by induction on
the pieces, where no slice and no bound is left.
-/

namespace Sigil

namespace Edit

/-- Edits come in the order of their starts. -/
def Ascending (edits : List Edit) : Prop := edits.Pairwise fun a b => a.start ≤ b.start

theorem start_trans (a b c : Edit) (hab : decide (a.start ≤ b.start))
    (hbc : decide (b.start ≤ c.start)) : decide (a.start ≤ c.start) :=
  decide_eq_true (Int.le_trans (of_decide_eq_true hab) (of_decide_eq_true hbc))

theorem start_total (a b : Edit) : decide (a.start ≤ b.start) || decide (b.start ≤ a.start) := by
  simp [Int.le_total]

theorem ascending_sorted (edits : List Edit) : Ascending (Edit.sorted edits) :=
  (List.pairwise_mergeSort start_trans start_total edits).imp of_decide_eq_true

/-- Where no two edits start at one place, there is one way to sort them. -/
theorem sorted_of_perm {edits es : List Edit} (hperm : edits.Perm es)
    (h : es.Pairwise fun a b => a.start < b.start) : Edit.sorted edits = es :=
  mergeSort_of_perm start_trans start_total hperm
    (h.imp fun hab => decide_eq_false (Int.not_le.2 hab))

end Edit

/-- A stretch that is kept, the span behind it, and what takes the span's place. -/
structure Piece where
  /-- What is kept in front of the span. -/
  kept : Text
  /-- The replaced span. -/
  old : Text
  /-- What stands in its place. -/
  new : Text

namespace Piece

/-- How far a piece reaches in the text before the edits. -/
def width (p : Piece) : Nat := p.kept.length + p.old.length

/-- How far a piece reaches in the edited text. -/
def newWidth (p : Piece) : Nat := p.kept.length + p.new.length

/-- The text before the edits. -/
def before (tail : Text) : List Piece → Text
  | [] => tail
  | p :: ps => p.kept ++ (p.old ++ before tail ps)

/-- The edited text. -/
def after (tail : Text) : List Piece → Text
  | [] => tail
  | p :: ps => p.kept ++ (p.new ++ after tail ps)

/-- The edits of the pieces of a text that starts at offset `n`. -/
def edits (n : Nat) : List Piece → List Edit
  | [] => []
  | p :: ps => ⟨(n + p.kept.length : Nat), (n + p.width : Nat), p.new⟩ :: edits (n + p.width) ps

/-- Spans do not run backwards, nor back behind the start of the pieces. -/
theorem mem_edits {n : Nat} {ps : List Piece} {e : Edit} (h : e ∈ edits n ps) :
    (n : Int) ≤ e.start ∧ e.start ≤ e.stop := by
  induction ps generalizing n with
  | nil => simp [edits] at h
  | cons p ps ih =>
    rcases List.mem_cons.1 h with rfl | h
    · simp only [width]
      omega
    · have := ih h
      omega

/-! ## Cutting -/

/-- What lies between two offsets is cut off in front of the rest. -/
theorem slice_append_drop (text : Text) {a b : Nat} (hab : a ≤ b) (hb : b ≤ text.length) :
    text.slice a b ++ text.drop b = text.drop a := by
  have h : (text.take b).drop a ++ text.drop b = (text.take b ++ text.drop b).drop a := by
    rw [List.drop_append_of_le_length (by rw [List.length_take]; omega)]
  rw [Text.slice_ofNat, h, List.take_append_drop]

theorem length_slice (text : Text) (a : Nat) {b : Nat} (hb : b ≤ text.length) :
    (text.slice a b).length = b - a := by
  rw [Text.slice_ofNat, List.length_drop, List.length_take, Nat.min_eq_left hb]

theorem slice_length (text : Text) (a : Nat) : text.slice a text.length = text.drop a := by
  rw [Text.slice_ofNat, List.take_length]

/-- A part of a text is found again at its place. -/
theorem slice_append (u s rest : Text) :
    (u ++ (s ++ rest)).slice u.length (u.length + s.length : Nat) = s := by
  rw [Text.slice_ofNat, List.take_length_add_append, List.take_left, List.drop_left]

/-- The pieces that a list of fitting edits cuts off behind an offset. -/
theorem exists_of_patchFrom {text out : Text} {es : List Edit} {done : Nat}
    (hd : done ≤ text.length) (h : Edit.patchFrom text done es = .ok out) :
    ∃ ps tail, text.drop done = before tail ps ∧ es = edits done ps ∧ out = after tail ps := by
  induction es generalizing done out with
  | nil =>
    refine ⟨[], text.drop done, rfl, rfl, ?_⟩
    rw [Edit.patchFrom, slice_length] at h
    exact (Except.ok.inj h).symm
  | cons e es ih =>
    obtain ⟨start, stop, new⟩ := e
    rw [Edit.patchFrom] at h
    split at h
    · cases h
    next hstart =>
    split at h
    · cases h
    next hstop =>
    simp only [not_or, Int.not_lt] at hstart hstop
    obtain ⟨s, rfl⟩ := Int.eq_ofNat_of_zero_le (Int.le_trans (Int.natCast_nonneg _) hstart)
    obtain ⟨t, rfl⟩ := Int.eq_ofNat_of_zero_le (Int.le_trans (Int.natCast_nonneg _) hstop.1)
    have h1 : done ≤ s := by omega
    have h2 : s ≤ t := by omega
    have h3 : t ≤ text.length := by omega
    split at h
    · cases h
    next out' hrest =>
    obtain ⟨ps, tail, htext, hes, hout⟩ := ih h3 hrest
    refine ⟨⟨text.slice done s, text.slice s t, new⟩ :: ps, tail, ?_, ?_, ?_⟩
    · rw [before, ← htext, slice_append_drop text h2 h3, slice_append_drop text h1 (by omega)]
    · have hk := length_slice text done (Nat.le_trans h2 h3)
      have ho := length_slice text s h3
      have hw : done + (text.slice done s).length = s := by omega
      have hw' : done + Piece.width ⟨text.slice done s, text.slice s t, new⟩ = t := by
        simp only [width]
        omega
      rw [edits, hw, hw', ← hes]
    · rw [after, ← hout, ← List.append_assoc]
      exact (Except.ok.inj h).symm

/-- Edits that are read off pieces fit, and put the pieces together. -/
theorem patchFrom_edits (u tail : Text) (ps : List Piece) :
    Edit.patchFrom (u ++ before tail ps) u.length (edits u.length ps) = .ok (after tail ps) := by
  induction ps generalizing u with
  | nil => rw [edits, Edit.patchFrom, slice_length, List.drop_left]; rfl
  | cons p ps ih =>
    have hwidth : p.width = p.kept.length + p.old.length := rfl
    have hlen : u.length + p.width = (u ++ (p.kept ++ p.old)).length := by
      rw [hwidth, List.length_append, List.length_append]
    have htext : u ++ before tail (p :: ps) = (u ++ (p.kept ++ p.old)) ++ before tail ps := by
      simp only [before, List.append_assoc]
    have hkept : (u ++ before tail (p :: ps)).slice u.length (u.length + p.kept.length : Nat)
        = p.kept := slice_append u p.kept _
    have hfits : u.length + p.width ≤ (u ++ before tail (p :: ps)).length := by
      rw [htext, List.length_append, ← hlen]
      exact Nat.le_add_right _ _
    have hrest := ih (u ++ (p.kept ++ p.old))
    rw [← htext, ← hlen] at hrest
    rw [edits, Edit.patchFrom, if_neg (by simp only; omega), if_neg (by simp only; omega), hrest,
      hkept]
    exact congrArg Except.ok (List.append_assoc _ _ _)

/-- **Edits fit a text exactly when they cut it into pieces**, and the edited text is put together
from the same pieces. -/
theorem patch_eq_ok_iff {text out : Text} {es : List Edit} :
    Edit.patch text es = .ok out ↔
      ∃ ps tail, text = before tail ps ∧ Edit.sorted es = edits 0 ps ∧ out = after tail ps := by
  constructor
  · intro h
    exact exists_of_patchFrom (Nat.zero_le text.length) h
  · rintro ⟨ps, tail, htext, hes, rfl⟩
    rw [Edit.patch, hes]
    rw [htext]
    exact patchFrom_edits [] tail ps

/-- The pieces into which accepted edits cut a text. -/
theorem exists_of_patch {text out : Text} {es : List Edit} (h : Edit.patch text es = .ok out) :
    ∃ ps tail, text = before tail ps ∧ out = after tail ps ∧ Edit.sorted es = edits 0 ps ∧
      (edits 0 ps).Perm es := by
  obtain ⟨ps, tail, htext, hes, hout⟩ := patch_eq_ok_iff.1 h
  exact ⟨ps, tail, htext, hout, hes, hes ▸ List.mergeSort_perm es _⟩

/-! ## The span of a piece -/

/-- The span of a piece holds what the piece replaces. -/
theorem slice_old (u tail : Text) (p : Piece) (ps : List Piece) :
    (u ++ before tail (p :: ps)).slice (u.length + p.kept.length : Nat) (u.length + p.width : Nat)
      = p.old := by
  have h := slice_append (u ++ p.kept) p.old (before tail ps)
  rw [List.append_assoc, List.length_append, Nat.add_assoc] at h
  exact h

/-- Every piece has its edit. -/
theorem exists_edit {p : Piece} {ps : List Piece} (u tail : Text) (hp : p ∈ ps) :
    ∃ e ∈ edits u.length ps,
      (u ++ before tail ps).slice e.start e.stop = p.old ∧ e.newText = p.new := by
  induction ps generalizing u with
  | nil => simp at hp
  | cons p' ps ih =>
    rcases List.mem_cons.1 hp with rfl | hp
    · exact ⟨_, List.mem_cons_self, slice_old u tail p ps, rfl⟩
    · obtain ⟨e, he, hold, hnew⟩ := ih (u ++ (p'.kept ++ p'.old)) hp
      have hlen : (u ++ (p'.kept ++ p'.old)).length = u.length + p'.width := by
        rw [List.length_append, List.length_append, width]
      rw [hlen] at he
      refine ⟨e, List.mem_cons_of_mem _ he, ?_, hnew⟩
      rw [← hold]
      simp only [before, List.append_assoc]

end Piece

end Sigil
