import Mathlib.Data.List.Pairwise

/-!
# Proofs/Sorting — what a stable sort makes of a list

    ties                      keep their order (`filter_mergeSort`)
    no ties, any other order  one outcome (`mergeSort_of_perm`)

Edits are sorted by their starts, mappings by the places they stand at.
-/

namespace Sigil

variable {α : Type} {le : α → α → Bool}

/-- **A stable sort keeps ties in their order.** -/
theorem filter_mergeSort {q : α → Bool}
    (trans : ∀ a b c, le a b → le b c → le a c) (total : ∀ a b, le a b || le b a)
    (hties : ∀ a b, q a → q b → le a b) (xs : List α) :
    (xs.mergeSort le).filter q = xs.filter q := by
  have hsorted : (xs.filter q).Pairwise fun a b => le a b :=
    List.pairwise_filter.2 (List.pairwise_of_forall fun a b => hties a b)
  have hkept := (List.sublist_mergeSort trans total hsorted List.filter_sublist).filter q
  rw [List.filter_filter] at hkept
  simp only [Bool.and_self] at hkept
  exact (hkept.eq_of_length ((List.mergeSort_perm xs le).filter q).length_eq.symm).symm

/-- **Without ties there is one way to sort**: a list in which nothing may stand the other way round
is what each of its permutations is sorted to. -/
theorem mergeSort_of_perm {xs ys : List α}
    (trans : ∀ a b c, le a b → le b c → le a c) (total : ∀ a b, le a b || le b a)
    (hperm : xs.Perm ys) (h : ys.Pairwise fun a b => le b a = false) : xs.mergeSort le = ys := by
  have hle : ys.Pairwise fun a b => le a b := h.imp fun {a b} hba => by
    simpa [hba] using total a b
  refine ((List.mergeSort_perm _ _).trans hperm).eq_of_pairwise (fun a b ha hb hab hba => ?_)
    (List.pairwise_mergeSort trans total xs) hle
  by_contra hne
  -- one of the two orders is refused, whichever of the two items stands in front
  have : Std.Symm fun a b : α => ¬(le a b ∧ le b a) := ⟨fun _ _ hab hba => hab hba.symm⟩
  have hone : ys.Pairwise fun a b => ¬(le a b ∧ le b a) := h.imp fun hba hboth => by
    simp [hba] at hboth
  exact hone.forall (hperm.mem_iff.1 (List.mem_mergeSort.1 ha)) hb hne ⟨hab, hba⟩

end Sigil
