import Sigil.Proofs.Shift.InStep
import Sigil.Proofs.SourceMap.Order

/-!
# Proofs/SourceMap/Snapped — a lookup at a replacement finds the last mapping of its span

    before   start ─ d₁ ─ d₂ ─ stop          lookup at stop - 1 finds d₂
    after    start                           lookup at start    finds d₂

All mappings inside a replaced span fall onto the start of the replacement and stay there behind one
another.  A lookup there takes the last of them (`originalPosition_replaced`), and so the mapping at
the start of the span is found only where none lies inside (`originalPosition_snapped`).
-/

namespace Sigil

variable {code out : Text} {edits : List Edit} {e f : Edit}

/-- The start of an accepted span lies strictly inside no other. -/
theorem Edit.start_notMem_span (h : Edit.patch code edits = .ok out) (he : e ∈ edits)
    (hf : f ∈ edits) : ¬(f.start < e.start ∧ e.start < f.stop) := by
  have hspan := Edit.span_of_patch h he
  rcases (Edit.inOrder_sorted h).disjoint (List.mem_mergeSort.2 he) (List.mem_mergeSort.2 hf) with
    rfl | hef | hfe
  all_goals omega

/-- **Where a replacement starts**: on the line of its span, at the adjusted column of the span's
start. -/
theorem Shift.position_moved_start (h : Edit.patch code edits = .ok out)
    (hold : ∀ e ∈ edits, '\n' ∉ code.slice e.start e.stop) (hnew : ∀ e ∈ edits, '\n' ∉ e.newText)
    (he : e ∈ edits) :
    (Text.position out.lineStarts (Edit.moved edits e.start)).line
        = (Text.position code.lineStarts e.start).line ∧
      out.unitColumn (Edit.moved edits e.start) = Shift.adjust (code.unitColumn e.start)
        (Shift.onLine code edits (Text.position code.lineStarts e.start).line) := by
  have h0 : ∀ e ∈ edits, 0 ≤ e.start := fun e he => (Edit.span_of_patch h he).1
  obtain ⟨q, hq⟩ := Int.eq_ofNat_of_zero_le (h0 e he)
  have hclear : ∀ f ∈ edits, ¬(f.start < q ∧ (q : Int) < f.stop) :=
    fun f hf => hq ▸ Edit.start_notMem_span h he hf
  obtain ⟨ps, tail, rfl, rfl, hes, hperm⟩ := Piece.exists_of_patch h
  have hplain := Piece.plain_of_edits (fun f hf => hold f (hperm.mem_iff.1 hf))
    fun f hf => hnew f (hperm.mem_iff.1 hf)
  have hshifts : (Piece.edits 0 ps).map (Shift.ofEdit (Piece.before tail ps))
      = Piece.shifts [] ps := Piece.map_ofEdit_edits [] tail ps
  rw [hq, Piece.moved_eq_image hperm hclear, Shift.onLine_eq h0, hes, hshifts]
  exact ⟨Piece.line_image hplain q, Piece.unitColumn_image hplain q⟩

namespace SourceMap

variable {m : SourceMap}

/-- Columns between which no mapping lies are looked up alike. -/
theorem originalPosition_congr (hm : m.Ascending) {line c d : Int}
    (h : ∀ p ∈ m.mappings, p.generatedLine = line →
      (p.generatedColumn ≤ c ↔ p.generatedColumn ≤ d)) :
    m.originalPosition line c = m.originalPosition line d := by
  rw [originalPosition_eq, originalPosition_eq, closest?_eq hm, closest?_eq hm]
  refine congrArg (fun ps => ((List.getLast? ps).map origin).getD {})
    (List.filter_congr fun p hp => ?_)
  by_cases hline : p.generatedLine = line
  · rw [decide_eq_decide.2 (h p hp hline)]
  · rw [decide_eq_false hline, Bool.and_false, Bool.and_false]

section

variable (h : Edit.patch code edits = .ok out)
  (hnl : ∀ e ∈ edits, '\n' ∉ code.slice e.start e.stop) (he : e ∈ edits)
  (hold : e.start < e.stop) (hnew : e.newText ≠ []) {line d : Int} (hline : OnLine code line e)
include h hnl he hold

/-- A span has columns. -/
theorem unitColumn_start_lt : code.unitColumn e.start < code.unitColumn e.stop := by
  have hspan := Edit.span_of_patch h he
  have hstop := Shift.ofEdit_stop_of_patch h hnl he
  have hlength := Shift.ofEdit_originalLength_pos hspan.1 hold hspan.2.2
  have hstart : (Shift.ofEdit code e).2.column = code.unitColumn e.start := rfl
  omega

include hnew hline

/-- **What falls up to the start of a replacement** is what lies in front of the end of its span. -/
theorem adjust_le_start_iff :
    Shift.adjust d (Shift.onLine code edits (line - 1))
        ≤ Shift.adjust (code.unitColumn e.start) (Shift.onLine code edits (line - 1))
      ↔ d ≤ code.unitColumn e.stop - 1 := by
  have horder := Shift.inOrder_onLine h (line - 1)
  have hspan := Edit.span_of_patch h he
  have hstop := Shift.ofEdit_stop_of_patch h hnl he
  have hmem : (Shift.ofEdit code e).2 ∈ Shift.onLine code edits (line - 1) :=
    (Shift.mem_onLine fun f hf => (Edit.span_of_patch h hf).1).2 ⟨e, he, hline, rfl⟩
  have hlength := Shift.ofEdit_originalLength_pos hspan.1 hold hspan.2.2
  have hnewLength : 0 < (Shift.ofEdit code e).2.newLength := Shift.ofEdit_newLength_pos hnew
  have hstart : (Shift.ofEdit code e).2.column = code.unitColumn e.start := rfl
  generalize (Shift.ofEdit code e).2 = s at *
  rw [← hstart]
  constructor
  · intro hle
    by_contra hbehind
    have hend : s.column + s.originalLength ≤ d := by omega
    have hlt := Shift.adjustFrom_lt_of_start 0 horder hmem hlength hnewLength hend
    exact absurd hle (Int.not_le.2 hlt)
  · intro hd
    rcases Int.le_total d s.column with hahead | hinside
    · exact Shift.adjustFrom_mono 0 horder hahead
    · -- both columns lie in the span
      obtain ⟨front, back, hsplit⟩ := List.append_of_mem hmem
      rw [hsplit] at horder ⊢
      refine Int.le_of_eq ?_
      rw [Shift.adjust, Shift.adjust, Shift.adjustFrom_of_mem_span 0 horder hinside (by omega),
        Shift.adjustFrom_of_mem_span 0 horder (Int.le_refl _) (by omega)]

/-- **At the start of a replacement** an adjusted map gives what the map gives at the last column of
the span. -/
theorem originalPosition_adjust_start (hm : m.Ascending) (hmapped : ∀ p ∈ m.mappings, p.isMapped) :
    (m.adjust code edits).originalPosition line
        (Shift.adjust (code.unitColumn e.start) (Shift.onLine code edits (line - 1)))
      = m.originalPosition line (code.unitColumn e.stop - 1) := by
  have hall : ∀ p : Mapping → Bool,
      (m.mappings.filter p).filter (·.isMapped) = m.mappings.filter p := fun p =>
    List.filter_eq_self.2 fun q hq => hmapped q (List.mem_of_mem_filter hq)
  rw [originalPosition_eq, originalPosition_eq,
    closest?_adjust_of_le_iff hm h (List.ne_nil_of_mem he) fun p _ _ =>
      adjust_le_start_iff h hnl he hold hnew hline, hall, closest?_eq hm, Option.map_map]
  -- adjusting moves the generated column only
  rfl

end

/-- **A lookup at a replacement finds the last mapping of its span.**  Let a map in order hold
mapped segments only, and let accepted edits replace something by something, each on one line.  At
the column where a replacement starts, the adjusted map gives what the map gives at the last column
of the replaced span.  Where no mapping lies strictly inside the span, this is what the map gives at
the start of the span. -/
theorem originalPosition_replaced (hm : m.Sorted) (hmapped : ∀ p ∈ m.mappings, p.isMapped)
    (h : Edit.patch code edits = .ok out)
    (hold : ∀ e ∈ edits, e.start < e.stop ∧ '\n' ∉ code.slice e.start e.stop)
    (hnew : ∀ e ∈ edits, e.newText ≠ [] ∧ '\n' ∉ e.newText) (he : e ∈ edits) :
    (m.adjust code edits).originalPosition
        ((Text.position out.lineStarts (Edit.moved edits e.start)).line + 1)
        (out.unitColumn (Edit.moved edits e.start))
      = m.originalPosition ((Text.position code.lineStarts e.start).line + 1)
          (code.unitColumn e.stop - 1) ∧
    ((∀ p ∈ m.mappings, p.generatedLine = (Text.position code.lineStarts e.start).line + 1 →
        ¬(code.unitColumn e.start < p.generatedColumn
          ∧ p.generatedColumn < code.unitColumn e.stop)) →
      (m.adjust code edits).originalPosition
          ((Text.position out.lineStarts (Edit.moved edits e.start)).line + 1)
          (out.unitColumn (Edit.moved edits e.start))
        = m.originalPosition ((Text.position code.lineStarts e.start).line + 1)
            (code.unitColumn e.start)) := by
  have hnl : ∀ e ∈ edits, '\n' ∉ code.slice e.start e.stop := fun e he => (hold e he).2
  have hon : OnLine code ((Text.position code.lineStarts e.start).line + 1) e :=
    (Int.add_sub_cancel _ 1).symm
  have hlast := originalPosition_adjust_start h hnl he (hold e he).1 (hnew e he).1 hon hm.ascending
    hmapped
  obtain ⟨hline, hcolumn⟩ := Shift.position_moved_start h hnl (fun e he => (hnew e he).2) he
  rw [Int.add_sub_cancel] at hlast
  rw [hline, hcolumn]
  have hlt := unitColumn_start_lt h hnl he (hold e he).1
  refine ⟨hlast, fun hempty => hlast.trans ?_⟩
  refine originalPosition_congr hm.ascending fun p hp hpline => ?_
  have hclear := hempty p hp hpline
  omega

/-- A map with a mapping for every column of `x.#ab;#cd`, up to the second name. -/
def tokenMap : SourceMap where
  mappings := [⟨1, 0, .str "a.js", some 1, some 0, .null⟩,
    ⟨1, 2, .str "a.js", some 1, some 2, .str "ab"⟩, ⟨1, 3, .str "a.js", some 1, some 3, .null⟩,
    ⟨1, 4, .str "a.js", some 1, some 4, .null⟩, ⟨1, 5, .str "a.js", some 1, some 5, .null⟩,
    ⟨1, 6, .str "a.js", some 1, some 6, .str "cd"⟩]
  sources := [.str "a.js"]
  names := [.str "ab", .str "cd"]

/-- The edits of both names. -/
def tokenEdits : List Edit := [⟨2, 5, "$a".toList⟩, ⟨6, 9, "$b".toList⟩]

theorem sorted_tokenMap : tokenMap.Sorted := by simp [Sorted, tokenMap, Mapping.before]

theorem patch_tokenEdits : Edit.patch "x.#ab;#cd".toList tokenEdits = .ok "x.$a;$b".toList := by
  rw [Edit.patch, Edit.sorted_of_perm .rfl (by decide)]
  rfl

/-- **The start of a token is hidden** by the mappings inside it: what was looked up at the name is
not found at its replacement. -/
theorem originalPosition_snapped :
    ¬∀ (m : SourceMap) (code out : Text) (edits : List Edit), m.Sorted →
      (∀ p ∈ m.mappings, p.isMapped) → Edit.patch code edits = .ok out →
      (∀ e ∈ edits, e.start < e.stop ∧ '\n' ∉ code.slice e.start e.stop) →
      (∀ e ∈ edits, e.newText ≠ [] ∧ '\n' ∉ e.newText) → ∀ e ∈ edits,
      (m.adjust code edits).originalPosition
          ((Text.position out.lineStarts (Edit.moved edits e.start)).line + 1)
          (out.unitColumn (Edit.moved edits e.start))
        = m.originalPosition ((Text.position code.lineStarts e.start).line + 1)
            (code.unitColumn e.start) := by
  intro hall
  have hsame := hall tokenMap _ _ tokenEdits sorted_tokenMap (by decide) patch_tokenEdits
    (by decide) (by decide) ⟨2, 5, "$a".toList⟩ (by decide)
  have hbefore : (tokenMap.originalPosition
      ((Text.position (Text.lineStarts "x.#ab;#cd".toList) 2).line + 1)
      (Text.unitColumn "x.#ab;#cd".toList 2)).column = some 2 := by
    rw [originalPosition_eq, closest?_eq sorted_tokenMap.ascending]
    rfl
  have hafter : ((tokenMap.adjust "x.#ab;#cd".toList tokenEdits).originalPosition
      ((Text.position (Text.lineStarts "x.$a;$b".toList) (Edit.moved tokenEdits 2)).line + 1)
      (Text.unitColumn "x.$a;$b".toList (Edit.moved tokenEdits 2))).column = some 4 := by
    rw [originalPosition_eq, closest?_eq (sorted_tokenMap.adjust patch_tokenEdits).ascending,
      adjust, Shift.byLine, Edit.sorted_of_perm .rfl (by decide)]
    rfl
  rw [hsame, hbefore] at hafter
  exact absurd hafter (by decide)

/-- At the first name the mapping of its last column is found, at the second one its own. -/
theorem originalPosition_replaced_token :
    (tokenMap.adjust "x.#ab;#cd".toList tokenEdits).originalPosition
        ((Text.position (Text.lineStarts "x.$a;$b".toList) (Edit.moved tokenEdits 2)).line + 1)
        (Text.unitColumn "x.$a;$b".toList (Edit.moved tokenEdits 2))
      = tokenMap.originalPosition
          ((Text.position (Text.lineStarts "x.#ab;#cd".toList) 2).line + 1)
          (Text.unitColumn "x.#ab;#cd".toList 5 - 1) ∧
    (tokenMap.adjust "x.#ab;#cd".toList tokenEdits).originalPosition
        ((Text.position (Text.lineStarts "x.$a;$b".toList) (Edit.moved tokenEdits 6)).line + 1)
        (Text.unitColumn "x.$a;$b".toList (Edit.moved tokenEdits 6))
      = tokenMap.originalPosition
          ((Text.position (Text.lineStarts "x.#ab;#cd".toList) 6).line + 1)
          (Text.unitColumn "x.#ab;#cd".toList 6) := by
  have hmapped : ∀ p ∈ tokenMap.mappings, p.isMapped := by decide
  have hold : ∀ e ∈ tokenEdits, e.start < e.stop ∧
      '\n' ∉ Text.slice "x.#ab;#cd".toList e.start e.stop := by decide
  have hnew : ∀ e ∈ tokenEdits, e.newText ≠ [] ∧ '\n' ∉ e.newText := by decide
  have hfirst : ⟨2, 5, "$a".toList⟩ ∈ tokenEdits := by decide
  have hsecond : ⟨6, 9, "$b".toList⟩ ∈ tokenEdits := by decide
  exact ⟨(originalPosition_replaced sorted_tokenMap hmapped patch_tokenEdits hold hnew hfirst).1,
    (originalPosition_replaced sorted_tokenMap hmapped patch_tokenEdits hold hnew hsecond).2
      (by decide)⟩

end SourceMap

end Sigil
