import Sigil.Proofs.Shift.ClosedForm
import Sigil.Proofs.SourceMap.Lookup

/-!
# Proofs/SourceMap/Order — adjusting keeps mappings in order

    a before b  ⟹  a adjusted before b adjusted

Columns keep their order on every line and lines do not change.  Spans that hold line feeds are no
exception, so accepted edits of any kind lead from a map in order to a map in order
(`Sorted.adjust`).  The columns themselves are sums (`adjust_keeps_order`).
-/

namespace Sigil.SourceMap

/-- The mappings come in the order of their generated positions. -/
def Sorted (m : SourceMap) : Prop := m.mappings.Pairwise fun a b => a.before b

variable {m : SourceMap} {code out : Text} {edits : List Edit}

/-- Mappings in order ascend along each line. -/
theorem Sorted.ascending (hm : m.Sorted) : m.Ascending := by
  refine hm.imp fun {a b} hab hline => ?_
  simp only [Mapping.before, Bool.or_eq_true, Bool.and_eq_true, decide_eq_true_eq] at hab
  omega

/-- Adjusting leaves a mapping behind those that were before it. -/
theorem before_adjustMapping (h : Edit.patch code edits = .ok out) {a b : Mapping}
    (hab : a.before b) : (adjustMapping (Shift.byLine code edits) a).before
      (adjustMapping (Shift.byLine code edits) b) := by
  simp only [Mapping.before, Bool.or_eq_true, Bool.and_eq_true, decide_eq_true_eq] at hab ⊢
  rcases hab with hlt | ⟨hline, hle⟩
  · exact .inl hlt
  · have hmono := Shift.adjustFrom_mono 0 (Shift.inOrder_onLine h (b.generatedLine - 1)) hle
    refine .inr ⟨hline, ?_⟩
    rw [adjustMapping, adjustMapping, hline]
    exact hmono

/-- **Accepted edits keep a map in order.** -/
theorem Sorted.adjust (hm : m.Sorted) (h : Edit.patch code edits = .ok out) :
    (m.adjust code edits).Sorted := by
  by_cases hne : edits = []
  · rw [SourceMap.adjust, if_pos (by simpa using hne)]
    exact hm
  · rw [Sorted, mappings_adjust m code hne, List.pairwise_map, List.pairwise_filter]
    exact hm.imp fun {a b} hab _ _ => before_adjustMapping h hab

/-- **Adjusted columns are sums, and keep their order.**  Let spans stand one behind the other on a
line.  A column inside none of them moves by the growth of all that end at it or before; a column
inside one goes to the start of this one, moved by the growth of those before it.  The order of
columns is kept, and none becomes negative.  So accepted edits keep a map in order. -/
theorem adjust_keeps_order :
    (∀ ss : List Shift, (∀ s ∈ ss, 0 ≤ s.column ∧ 0 ≤ s.originalLength ∧ 0 ≤ s.newLength) →
      ss.IsChain (fun s t => s.column + s.originalLength ≤ t.column) →
      (∀ c, (∀ s ∈ ss, ¬s.Covers c) → Shift.adjust c ss = c + Shift.growthUpTo ss c) ∧
      (∀ front s back c, ss = front ++ s :: back → s.Covers c →
        Shift.adjust c ss = s.column + (front.map Shift.growth).sum) ∧
      (∀ c d, c ≤ d → Shift.adjust c ss ≤ Shift.adjust d ss) ∧
      ∀ c, 0 ≤ c → 0 ≤ Shift.adjust c ss) ∧
    ∀ (m : SourceMap) (code out : Text) (edits : List Edit), Edit.patch code edits = .ok out →
      m.Sorted → (m.adjust code edits).Sorted := by
  refine ⟨fun ss hss hchain => ?_, fun m code out edits h hm => hm.adjust h⟩
  have horder : Shift.InOrder ss := .of_isChain (fun s hs => (hss s hs).2) hchain
  refine ⟨fun c hc => ?_, fun front s back c hsplit hc => ?_,
    fun c d hcd => Shift.adjustFrom_mono 0 horder hcd, fun c hc => ?_⟩
  · rw [Shift.adjust, Shift.adjustFrom_eq_add_growthUpTo 0 horder hc, Int.zero_add]
  · subst hsplit
    rw [Shift.adjust, Shift.adjustFrom_of_mem_span 0 horder (Int.le_of_lt hc.1) hc.2, Int.zero_add]
  · exact Shift.le_adjustFrom 0 horder (fun s hs => (hss s hs).1) hc

/-- Something put in, a shorter and a longer replacement side by side, and a span taken out. -/
def crowdedLine : List Shift := [⟨0, 0, 2⟩, ⟨0, 4, 1⟩, ⟨4, 2, 5⟩, ⟨10, 3, 0⟩]

/-- Mappings around and inside a span that reaches over the end of a line. -/
def brokenMap : SourceMap where
  mappings := [⟨1, 0, .str "a.js", some 1, some 0, .null⟩,
    ⟨1, 2, .str "a.js", some 1, some 2, .null⟩, ⟨2, 0, .str "a.js", some 2, some 0, .null⟩,
    ⟨2, 2, .str "a.js", some 2, some 2, .null⟩]
  sources := [.str "a.js"]

theorem adjust_keeps_order_crowded :
    Shift.adjust 8 crowdedLine = 8 + Shift.growthUpTo crowdedLine 8 ∧
      Shift.growthUpTo crowdedLine 8 = 2 ∧
      Shift.adjust 12 crowdedLine = 10 + (2 + (-3) + 3) ∧
      Shift.adjust 8 crowdedLine ≤ Shift.adjust 12 crowdedLine ∧
      0 ≤ Shift.adjust 8 crowdedLine ∧
      (brokenMap.adjust "ab\ncd;".toList
        [⟨1, 4, "XY".toList⟩, ⟨4, 5, []⟩]).Sorted := by
  have hss : ∀ s ∈ crowdedLine, 0 ≤ s.column ∧ 0 ≤ s.originalLength ∧ 0 ≤ s.newLength := by decide
  have hchain : crowdedLine.IsChain fun s t => s.column + s.originalLength ≤ t.column := by decide
  have h : Edit.patch "ab\ncd;".toList [⟨1, 4, "XY".toList⟩, ⟨4, 5, []⟩]
      = .ok "aXY;".toList := by
    rw [Edit.patch, Edit.sorted_of_perm .rfl (by decide)]
    rfl
  have hm : brokenMap.Sorted := by simp [Sorted, brokenMap, Mapping.before]
  obtain ⟨hclear, hinside, hmono, hnonneg⟩ := adjust_keeps_order.1 crowdedLine hss hchain
  exact ⟨hclear 8 (by decide), by decide,
    hinside [⟨0, 0, 2⟩, ⟨0, 4, 1⟩, ⟨4, 2, 5⟩] ⟨10, 3, 0⟩ [] 12 rfl (by decide),
    hmono 8 12 (by decide), hnonneg 8 (by decide), adjust_keeps_order.2 _ _ _ _ h hm⟩

end Sigil.SourceMap
