import Sigil.Proofs.Edit.InOrder
import Sigil.Proofs.Shift.ByLine

/-!
# Proofs/Shift/Monotone — columns keep their order

    c ≤ d  ⟹  adjust c ≤ adjust d

Columns inside a replaced span all fall onto the start of the replacement, so the order need not
stay strict.  It does behind a column that no span covers (`adjustFrom_lt_of_clear`), and
behind the start of a span from the end of the span on (`adjustFrom_lt_of_start`).

The shifts that accepted edits have on a line do not overlap (`inOrder_onLine`).
-/

namespace Sigil.Shift

/-- Shifts of one line, each span starting where the one in front of it ends or later. -/
structure InOrder (ss : List Shift) : Prop where
  lengths : ∀ s ∈ ss, 0 ≤ s.originalLength ∧ 0 ≤ s.newLength
  disjoint : ss.Pairwise fun a b => a.column + a.originalLength ≤ b.column

namespace InOrder

variable {s : Shift} {ss : List Shift}

theorem head (h : InOrder (s :: ss)) : 0 ≤ s.originalLength ∧ 0 ≤ s.newLength :=
  h.lengths s List.mem_cons_self

theorem behind (h : InOrder (s :: ss)) : ∀ t ∈ ss, s.column + s.originalLength ≤ t.column :=
  (List.pairwise_cons.1 h.disjoint).1

theorem tail (h : InOrder (s :: ss)) : InOrder ss :=
  ⟨fun t ht => h.lengths t (List.mem_cons_of_mem _ ht), (List.pairwise_cons.1 h.disjoint).2⟩

end InOrder

/-! ## The order of columns -/

variable {ss : List Shift} {lo c d : Int} (moved : Int)

/-- Columns at or behind an offset that no shift starts before stay there. -/
theorem le_adjustFrom (h : InOrder ss) (hlo : ∀ s ∈ ss, lo ≤ s.column) (hd : lo ≤ d) :
    lo + moved ≤ adjustFrom moved d ss := by
  induction ss generalizing moved lo with
  | nil => exact Int.add_le_add_right hd moved
  | cons s ss ih =>
    have hs := hlo s List.mem_cons_self
    have hlen := h.head
    rw [adjustFrom]
    split
    · next hpass =>
      have hrest := ih (moved + s.growth) h.tail h.behind hpass
      rw [growth] at hrest ⊢
      omega
    · split <;> omega

/-- A column behind a span stays behind its replacement. -/
theorem le_adjustFrom_passed {s : Shift} (h : InOrder (s :: ss))
    (hd : s.column + s.originalLength ≤ d) :
    s.column + s.newLength + moved ≤ adjustFrom moved d (s :: ss) := by
  have hrest := le_adjustFrom (moved + s.growth) h.tail h.behind hd
  rw [adjustFrom_passed hd]
  rw [growth] at hrest ⊢
  omega

/-- **Adjusting keeps the order of columns.** -/
theorem adjustFrom_mono (h : InOrder ss) (hcd : c ≤ d) :
    adjustFrom moved c ss ≤ adjustFrom moved d ss := by
  induction ss generalizing moved with
  | nil => exact Int.add_le_add_right hcd moved
  | cons s ss ih =>
    have hlen := h.head
    by_cases hc : s.column + s.originalLength ≤ c
    · rw [adjustFrom_passed hc, adjustFrom_passed (Int.le_trans hc hcd)]
      exact ih _ h.tail
    · by_cases hd : s.column + s.originalLength ≤ d
      · have hpassed := le_adjustFrom_passed moved h hd
        rw [adjustFrom, if_neg hc]
        split <;> omega
      · rw [adjustFrom, adjustFrom, if_neg hc, if_neg hd]
        split <;> split <;> omega

/-- **Behind a column that no span covers** the order stays strict. -/
theorem adjustFrom_lt_of_clear (h : InOrder ss)
    (hc : ∀ s ∈ ss, c < s.column ∨ s.column + s.originalLength ≤ c) (hcd : c < d) :
    adjustFrom moved c ss < adjustFrom moved d ss := by
  induction ss generalizing moved with
  | nil => exact Int.add_lt_add_right hcd moved
  | cons s ss ih =>
    have hlen := h.head
    obtain ⟨hhead, hrest⟩ := List.forall_mem_cons.1 hc
    by_cases hpass : s.column + s.originalLength ≤ c
    · rw [adjustFrom_passed hpass, adjustFrom_passed (by omega)]
      exact ih _ h.tail hrest
    · have hahead : c < s.column := hhead.resolve_right hpass
      rw [adjustFrom_ahead (Int.le_of_lt hahead) (Int.not_le.1 hpass)]
      by_cases hd : s.column + s.originalLength ≤ d
      · have hpassed := le_adjustFrom_passed moved h hd
        omega
      · rw [adjustFrom, if_neg hd]
        split <;> omega

/-- **Behind the start of a span that something replaces** it stays strict from the end of the span
on. -/
theorem adjustFrom_lt_of_start {s : Shift} (h : InOrder ss) (hs : s ∈ ss)
    (hold : 0 < s.originalLength) (hnew : 0 < s.newLength)
    (hd : s.column + s.originalLength ≤ d) :
    adjustFrom moved s.column ss < adjustFrom moved d ss := by
  induction ss generalizing moved with
  | nil => exact absurd hs List.not_mem_nil
  | cons t ss ih =>
    rcases List.mem_cons.1 hs with rfl | hs
    · have hpassed := le_adjustFrom_passed moved h hd
      rw [adjustFrom_ahead (Int.le_refl _) (by omega)]
      omega
    · have hpass := h.behind s hs
      rw [adjustFrom_passed hpass, adjustFrom_passed (by omega)]
      exact ih _ h.tail hs

/-! ## The shifts of accepted edits -/

variable {code out : Text} {edits : List Edit}

/-- The shift of a span that holds no line feed reaches from the column of its start to the column
of its end. -/
theorem ofEdit_stop {e : Edit} (h0 : 0 ≤ e.start) (hle : e.start ≤ e.stop)
    (hnl : '\n' ∉ code.slice e.start e.stop) :
    (ofEdit code e).2.column + (ofEdit code e).2.originalLength = code.unitColumn e.stop := by
  obtain ⟨p, hp⟩ := Int.eq_ofNat_of_zero_le h0
  obtain ⟨q, hq⟩ := Int.eq_ofNat_of_zero_le (Int.le_trans h0 hle)
  rw [hp, hq] at hnl hle
  rw [ofEdit, hp, hq, Text.unitColumn_of_notMem_slice (Int.ofNat_le.1 hle) hnl]
  rfl

theorem ofEdit_stop_of_patch (h : Edit.patch code edits = .ok out)
    (hnl : ∀ e ∈ edits, '\n' ∉ code.slice e.start e.stop) {e : Edit} (he : e ∈ edits) :
    (ofEdit code e).2.column + (ofEdit code e).2.originalLength = code.unitColumn e.stop :=
  ofEdit_stop (Edit.span_of_patch h he).1 (Edit.span_of_patch h he).2.1 (hnl e he)

/-- A span that is not empty has units. -/
theorem ofEdit_originalLength_pos {e : Edit} (h0 : 0 ≤ e.start) (hlt : e.start < e.stop)
    (hin : e.stop ≤ code.length) : 0 < (ofEdit code e).2.originalLength := by
  obtain ⟨p, hp⟩ := Int.eq_ofNat_of_zero_le h0
  obtain ⟨q, hq⟩ := Int.eq_ofNat_of_zero_le (Int.le_trans h0 (Int.le_of_lt hlt))
  rw [hp, hq] at hlt
  rw [hq] at hin
  have hlength := Piece.length_slice code p (Int.ofNat_le.1 hin)
  have hunits := Text.length_le_unitLength (code.slice p q)
  rw [ofEdit, hp, hq]
  simp only
  omega

/-- A replacement that is not empty has units. -/
theorem ofEdit_newLength_pos {e : Edit} (h : e.newText ≠ []) :
    0 < (ofEdit code e).2.newLength :=
  Int.ofNat_lt.2 (Nat.lt_of_lt_of_le (List.length_pos_iff.2 h) (Text.length_le_unitLength _))

/-- Of two edits on a line, the span of the first holds no line feed. -/
theorem notMem_slice_of_line_eq {a b : Edit} (h0 : 0 ≤ a.start) (ha : a.start ≤ a.stop)
    (hab : a.stop ≤ b.start) (hline : (ofEdit code a).1 = (ofEdit code b).1) :
    '\n' ∉ code.slice a.start a.stop := by
  obtain ⟨p, hp⟩ := Int.eq_ofNat_of_zero_le h0
  obtain ⟨q, hq⟩ := Int.eq_ofNat_of_zero_le (Int.le_trans h0 ha)
  obtain ⟨r, hr⟩ := Int.eq_ofNat_of_zero_le (Int.le_trans h0 (Int.le_trans ha hab))
  rw [ofEdit, ofEdit, hp, hr, Text.line_position, Text.line_position] at hline
  rw [hp, hq] at ha ⊢
  rw [hq, hr] at hab
  have hrest : (code.take q).count '\n' ≤ (code.take r).count '\n' :=
    (List.take_sublist_take_left (Int.ofNat_le.1 hab)).count_le _
  rw [← Text.take_append_slice code (Int.ofNat_le.1 ha), List.count_append] at hrest
  exact List.count_eq_zero.1 (by omega)

/-- Of two edits on a line, the columns of the first end where those of the second start, or
before. -/
theorem ofEdit_disjoint {a b : Edit} (h0 : 0 ≤ a.start) (ha : a.start ≤ a.stop)
    (hab : a.stop ≤ b.start) (hline : (ofEdit code a).1 = (ofEdit code b).1) :
    (ofEdit code a).2.column + (ofEdit code a).2.originalLength ≤ (ofEdit code b).2.column := by
  have hnl := notMem_slice_of_line_eq h0 ha hab hline
  rw [ofEdit_stop h0 ha hnl]
  obtain ⟨p, hp⟩ := Int.eq_ofNat_of_zero_le h0
  obtain ⟨q, hq⟩ := Int.eq_ofNat_of_zero_le (Int.le_trans h0 ha)
  obtain ⟨r, hr⟩ := Int.eq_ofNat_of_zero_le (Int.le_trans h0 (Int.le_trans ha hab))
  rw [ofEdit, ofEdit, hp, hr, Text.line_position, Text.line_position] at hline
  rw [hp, hq] at hnl ha
  rw [hq, hr] at hab
  have hpq := Text.count_take_of_notMem_slice (Int.ofNat_le.1 ha) hnl
  rw [ofEdit, hq, hr, Text.unitColumn_of_line_eq code (Int.ofNat_le.1 hab) (by omega)]
  simp only
  omega

/-- The shifts of a line are those of its edits. -/
theorem mem_onLine (h0 : ∀ e ∈ edits, 0 ≤ e.start) {line : Int} {s : Shift} :
    s ∈ onLine code edits line ↔
      ∃ e ∈ edits, (Text.position code.lineStarts e.start).line = line ∧ (ofEdit code e).2 = s := by
  rw [onLine_eq h0, select, List.mem_map]
  constructor
  · rintro ⟨x, hx, rfl⟩
    obtain ⟨hx, hline⟩ := List.mem_filter.1 hx
    obtain ⟨e, he, rfl⟩ := List.mem_map.1 hx
    exact ⟨e, List.mem_mergeSort.1 he, of_decide_eq_true hline, rfl⟩
  · rintro ⟨e, he, hline, rfl⟩
    have hmem : ofEdit code e ∈ (Edit.sorted edits).map (ofEdit code) :=
      List.mem_map_of_mem (List.mem_mergeSort.2 he)
    exact ⟨ofEdit code e, List.mem_filter.2 ⟨hmem, decide_eq_true hline⟩, rfl⟩

/-- **The shifts that accepted edits have on a line stand in order.**  A span that holds a line feed
is the last one of its line, so it may be there. -/
theorem inOrder_onLine (h : Edit.patch code edits = .ok out) (line : Int) :
    InOrder (onLine code edits line) := by
  have horder := Edit.inOrder_sorted h
  have hmem : ∀ e ∈ Edit.sorted edits, e ∈ edits := fun e => List.mem_mergeSort.1
  have h0 : ∀ e ∈ edits, 0 ≤ e.start := fun e he => (Edit.span_of_patch h he).1
  constructor
  · intro s hs
    obtain ⟨e, -, -, rfl⟩ := (mem_onLine h0).1 hs
    exact ⟨Int.natCast_nonneg _, Int.natCast_nonneg _⟩
  · rw [onLine_eq h0, select, List.pairwise_map, List.pairwise_filter, List.pairwise_map]
    refine horder.pairwise.imp_of_mem fun {a b} ha _ hab hla hlb => ?_
    simp only [decide_eq_true_eq] at hla hlb
    exact ofEdit_disjoint (h0 a (hmem a ha)) (horder.mem ha).2.1 hab.2 (hla.trans hlb.symm)

end Sigil.Shift
