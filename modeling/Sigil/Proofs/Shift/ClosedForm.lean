import Mathlib.Algebra.Order.Ring.Int
import Mathlib.Data.List.Chain
import Sigil.Proofs.Shift.Monotone

/-!
# Proofs/Shift/ClosedForm — the adjusted column as a sum

    adjust c  =  c + growth of the spans that end at c or before        (c inside no span)
    adjust c  =  start of the span + growth of the spans before it      (c inside a span)

`Shift.adjust` adds up growth and stops at the first span that ends behind the column.  Of spans one
behind the other, none behind that one ends at the column or before, so nothing is missed and the
sums are over all of them.
-/

namespace Sigil.Shift

/-- A column lies strictly inside the replaced span. -/
def Covers (s : Shift) (c : Int) : Prop := s.column < c ∧ c < s.column + s.originalLength

instance (s : Shift) (c : Int) : Decidable (s.Covers c) := inferInstanceAs (Decidable (_ ∧ _))

/-- How much longer the spans that end at a column or before make the line. -/
def growthUpTo (ss : List Shift) (c : Int) : Int :=
  ((ss.filter fun s => s.column + s.originalLength ≤ c).map growth).sum

variable {s : Shift} {ss front back : List Shift} {c : Int} (moved : Int)

theorem growthUpTo_cons (s : Shift) (ss : List Shift) (c : Int) :
    growthUpTo (s :: ss) c
      = if s.column + s.originalLength ≤ c then s.growth + growthUpTo ss c
        else growthUpTo ss c := by
  rw [growthUpTo, List.filter_cons]
  by_cases h : s.column + s.originalLength ≤ c <;> simp [h, growthUpTo]

theorem growthUpTo_eq_zero (h : ∀ s ∈ ss, c < s.column + s.originalLength) :
    growthUpTo ss c = 0 := by
  rw [growthUpTo, List.filter_eq_nil_iff.2 fun s hs => by simpa using h s hs]
  rfl

/-- It is enough that each span ends where the next one starts, or before. -/
theorem InOrder.of_isChain (hlength : ∀ s ∈ ss, 0 ≤ s.originalLength ∧ 0 ≤ s.newLength)
    (hchain : ss.IsChain fun s t => s.column + s.originalLength ≤ t.column) : InOrder ss := by
  induction ss with
  | nil => exact ⟨hlength, .nil⟩
  | cons s ss ih =>
    refine ⟨hlength, ?_⟩
    cases ss with
    | nil => exact List.pairwise_singleton _ s
    | cons t ss =>
      obtain ⟨hst, hrest⟩ := List.isChain_cons_cons.1 hchain
      have htail := ih (fun u hu => hlength u (List.mem_cons_of_mem _ hu)) hrest
      refine List.pairwise_cons.2 ⟨fun u hu => ?_, htail.disjoint⟩
      rcases List.mem_cons.1 hu with rfl | hu
      · exact hst
      · have hlen := htail.head
        have hbehind := htail.behind u hu
        omega

/-- **Inside no span** a column moves by the growth of all spans that end at it or before. -/
theorem adjustFrom_eq_add_growthUpTo (h : InOrder ss) (hc : ∀ s ∈ ss, ¬s.Covers c) :
    adjustFrom moved c ss = c + (moved + growthUpTo ss c) := by
  induction ss generalizing moved with
  | nil => rw [adjustFrom, growthUpTo_eq_zero (List.forall_mem_nil _), Int.add_zero]
  | cons s ss ih =>
    obtain ⟨hs, hss⟩ := List.forall_mem_cons.1 hc
    by_cases hpass : s.column + s.originalLength ≤ c
    · rw [adjustFrom_passed hpass, ih _ h.tail hss, growthUpTo_cons, if_pos hpass, Int.add_assoc]
    · -- the loop stops here, and no later span ends at the column or before
      have hahead : c ≤ s.column := Int.not_lt.1 fun hlt => hs ⟨hlt, Int.not_le.1 hpass⟩
      have hnone : ∀ t ∈ s :: ss, c < t.column + t.originalLength := by
        intro t ht
        rcases List.mem_cons.1 ht with rfl | ht
        · exact Int.not_le.1 hpass
        · have hbehind := h.behind t ht
          have hlen := h.tail.lengths t ht
          omega
      rw [adjustFrom_ahead hahead (Int.not_le.1 hpass), growthUpTo_eq_zero hnone, Int.add_zero]

/-- **From the start of a span up to its end** columns go where its start goes: it moves by the
growth of all spans before it. -/
theorem adjustFrom_of_mem_span (h : InOrder (front ++ s :: back)) (hc : s.column ≤ c)
    (hc' : c < s.column + s.originalLength) :
    adjustFrom moved c (front ++ s :: back) = s.column + (moved + (front.map growth).sum) := by
  induction front generalizing moved with
  | nil =>
    rw [List.nil_append, List.map_nil, List.sum_nil, Int.add_zero]
    rcases Int.lt_or_eq_of_le hc with hlt | rfl
    · exact adjustFrom_inside hlt hc'
    · exact adjustFrom_ahead (Int.le_refl _) hc'
  | cons t front ih =>
    have hpass : t.column + t.originalLength ≤ c :=
      Int.le_trans (h.behind s List.mem_append_cons_self) hc
    rw [List.cons_append, adjustFrom_passed hpass, ih _ h.tail, List.map_cons, List.sum_cons,
      Int.add_assoc moved]

end Sigil.Shift
