import Sigil.Edit

/-!
# Proofs/Edit/InOrder — edits that stand one behind the other

    lo ≤ start₁ ≤ stop₁ ≤ start₂ ≤ stop₂ ≤ … ≤ hi

Such edits are already sorted, and every text that reaches up to `hi` takes them
(`InOrder.exists_patch`); what a text takes is of this kind once it is sorted (`inOrder_sorted`).
-/

namespace Sigil.Edit

/-- Without edits a text stays as it is. -/
theorem patch_nil (text : Text) : patch text [] = .ok text := by
  have hslice : text.slice (0 : Nat) text.length = text := by
    rw [Text.slice_ofNat, List.take_length, List.drop_zero]
  rw [patch, sorted, List.mergeSort_nil, patchFrom]
  exact congrArg Except.ok hslice

/-- Edits between two offsets, none starting before the one in front of it ends. -/
def InOrder (lo hi : Int) : List Edit → Prop
  | [] => lo ≤ hi
  | e :: edits => lo ≤ e.start ∧ e.start ≤ e.stop ∧ InOrder e.stop hi edits

variable {lo mid hi : Int} {es fs : List Edit}

namespace InOrder

theorem le (h : InOrder lo hi es) : lo ≤ hi := by
  induction es generalizing lo with
  | nil => exact h
  | cons e es ih =>
    obtain ⟨hstart, hspan, hrest⟩ := h
    exact Int.le_trans hstart (Int.le_trans hspan (ih hrest))

/-- The room may begin earlier. -/
theorem of_le (h : InOrder mid hi es) (hlo : lo ≤ mid) : InOrder lo hi es := by
  cases es with
  | nil => exact Int.le_trans hlo h
  | cons e es => exact ⟨Int.le_trans hlo h.1, h.2⟩

/-- Edits in order can be followed by others behind them. -/
theorem append (h : InOrder lo mid es) (h' : InOrder mid hi fs) : InOrder lo hi (es ++ fs) := by
  induction es generalizing lo with
  | nil => exact h'.of_le h
  | cons e es ih => exact ⟨h.1, h.2.1, ih h.2.2⟩

/-- The room may end later. -/
theorem of_le_right (h : InOrder lo mid es) (hhi : mid ≤ hi) : InOrder lo hi es := by
  have hnil : InOrder mid hi [] := hhi
  simpa using h.append hnil

theorem mem {e : Edit} (h : InOrder lo hi es) (he : e ∈ es) :
    lo ≤ e.start ∧ e.start ≤ e.stop ∧ e.stop ≤ hi := by
  induction es generalizing lo with
  | nil => exact absurd he List.not_mem_nil
  | cons f es ih =>
    obtain ⟨hstart, hspan, hrest⟩ := h
    rcases List.mem_cons.1 he with rfl | he
    · exact ⟨hstart, hspan, hrest.le⟩
    · have := ih hrest he
      omega

/-- **Each edit ends before all later ones start.** -/
theorem pairwise (h : InOrder lo hi es) :
    es.Pairwise fun a b => a.start ≤ b.start ∧ a.stop ≤ b.start := by
  induction es generalizing lo with
  | nil => exact .nil
  | cons e es ih =>
    obtain ⟨-, hspan, hrest⟩ := h
    refine List.pairwise_cons.2 ⟨fun f hf => ?_, ih hrest⟩
    have := hrest.mem hf
    omega

/-- Of two edits in order, one ends before the other starts. -/
theorem disjoint {e f : Edit} (h : InOrder lo hi es) (he : e ∈ es) (hf : f ∈ es) :
    e = f ∨ e.stop ≤ f.start ∨ f.stop ≤ e.start := by
  induction es generalizing lo with
  | nil => exact absurd he List.not_mem_nil
  | cons g es ih =>
    obtain ⟨-, -, hrest⟩ := h
    rcases List.mem_cons.1 he with rfl | he' <;> rcases List.mem_cons.1 hf with rfl | hf'
    · exact .inl rfl
    · exact .inr (.inl (hrest.mem hf').1)
    · exact .inr (.inr (hrest.mem he').1)
    · exact ih hrest he' hf'

/-- Sorting leaves them as they are. -/
theorem sorted_eq_self (h : InOrder lo hi es) : Edit.sorted es = es :=
  List.mergeSort_of_pairwise (h.pairwise.imp fun hab => decide_eq_true hab.1)

theorem exists_patchFrom {text : Text} (h : InOrder lo text.length es) :
    ∃ out, Edit.patchFrom text lo es = .ok out := by
  induction es generalizing lo with
  | nil => exact ⟨_, rfl⟩
  | cons e es ih =>
    obtain ⟨hstart, hspan, hrest⟩ := h
    obtain ⟨out, hout⟩ := ih hrest
    have := hrest.le
    rw [Edit.patchFrom, if_neg (by omega), if_neg (by omega), hout]
    exact ⟨_, rfl⟩

/-- **A text takes edits that stand in order within it.** -/
theorem exists_patch {text : Text} (h : InOrder 0 text.length es) :
    ∃ out, Edit.patch text es = .ok out := by
  rw [Edit.patch, h.sorted_eq_self]
  exact h.exists_patchFrom

/-- Edits that a text takes from an offset on stand in order behind it. -/
theorem of_patchFrom {text out : Text} (hlo : lo ≤ text.length)
    (h : Edit.patchFrom text lo es = .ok out) : InOrder lo text.length es := by
  induction es generalizing lo out with
  | nil => exact hlo
  | cons e es ih =>
    rw [Edit.patchFrom] at h
    split at h
    · cases h
    next hstart =>
    split at h
    · cases h
    next hstop =>
    split at h
    · cases h
    next tail hrest => exact ⟨by omega, by omega, ih (by omega) hrest⟩

end InOrder

/-- **Accepted edits stand in order** once they are sorted. -/
theorem inOrder_sorted {text out : Text} (h : patch text es = .ok out) :
    InOrder 0 text.length (sorted es) :=
  InOrder.of_patchFrom (Int.natCast_nonneg _) h

/-- The span of an accepted edit lies in the text. -/
theorem span_of_patch {text out : Text} {e : Edit} (h : patch text es = .ok out) (he : e ∈ es) :
    0 ≤ e.start ∧ e.start ≤ e.stop ∧ e.stop ≤ text.length :=
  (inOrder_sorted h).mem (List.mem_mergeSort.2 he)

end Sigil.Edit
