/-!
# Total — the sizes of the items of a list, added up

Sizes of trees and lengths of texts are totals, and one law per way to build a list is all that is
needed to compare them.
-/

namespace Sigil

/-- The sizes of the items of a list, added up. -/
def total {α : Type} (size : α → Nat) (l : List α) : Nat := l.foldr (fun x n => size x + n) 0

section

variable {α β : Type} (size : α → Nat)

@[simp] theorem total_nil : total size [] = 0 := rfl

@[simp] theorem total_cons (x : α) (l : List α) :
    total size (x :: l) = size x + total size l := rfl

@[simp] theorem total_append (l m : List α) :
    total size (l ++ m) = total size l + total size m := by
  induction l with
  | nil => simp
  | cons x l ih => rw [List.cons_append, total_cons, total_cons, ih, Nat.add_assoc]

@[simp] theorem total_map (f : β → α) (l : List β) :
    total size (l.map f) = total (fun x => size (f x)) l := by
  induction l with
  | nil => rfl
  | cons x l ih => rw [List.map_cons, total_cons, total_cons, ih]

/-- Leaving items out makes no total larger. -/
theorem total_filter_le (p : α → Bool) (l : List α) : total size (l.filter p) ≤ total size l := by
  induction l with
  | nil => exact Nat.le_refl 0
  | cons x l ih =>
    rw [List.filter_cons]
    split
    · exact Nat.add_le_add_left ih (size x)
    · exact Nat.le_trans ih (Nat.le_add_left _ _)

end

end Sigil
