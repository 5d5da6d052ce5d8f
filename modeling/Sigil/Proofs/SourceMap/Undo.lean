import Sigil.Proofs.Shift.Undo
import Sigil.Proofs.SourceMap.Lookup

/-!
# Proofs/SourceMap/Undo — taking edits back takes a map back

    text ──edits──▸ edited text ──taken back──▸ text
    map  ──edits──▸ edited map  ──taken back──▸ map, less what the edits forgot

The text comes back as it was.  Of the map, unmapped segments are gone, and mappings strictly inside
a replaced span have fallen back to its start (`fallBack`); nothing else is lost.
-/

namespace Sigil.SourceMap

variable {code out : Text} {edits : List Edit}

instance (code : Text) (line : Int) (e : Edit) : Decidable (OnLine code line e) :=
  inferInstanceAs (Decidable (_ = _))

/-- **The column that edits leave of a column**: the start of the span of its line that it lies
strictly inside of, or else the column itself. -/
def fallBack (code : Text) (edits : List Edit) (line c : Int) : Int :=
  match edits.find? fun e =>
    OnLine code line e ∧ code.unitColumn e.start < c ∧ c < code.unitColumn e.stop with
  | some e => code.unitColumn e.start
  | none => c

/-- **There and back a column falls back**, if every edit replaces something by something. -/
theorem roundTrip_onLine (h : Edit.patch code edits = .ok out)
    (hnl : ∀ e ∈ edits, '\n' ∉ code.slice e.start e.stop) (hnew : ∀ e ∈ edits, e.newText ≠ [])
    (line c : Int) :
    Shift.roundTrip 0 c (Shift.onLine code edits (line - 1)) = fallBack code edits line c := by
  have horder := Shift.inOrder_onLine h (line - 1)
  have h0 : ∀ e ∈ edits, 0 ≤ e.start := fun e he => (Edit.span_of_patch h he).1
  have hlength : ∀ s ∈ Shift.onLine code edits (line - 1), 0 < s.newLength := fun s hs => by
    obtain ⟨e, he, -, rfl⟩ := (Shift.mem_onLine h0).1 hs
    exact Shift.ofEdit_newLength_pos (hnew e he)
  rw [fallBack]
  split
  · next e hfound =>
    have he := List.mem_of_find?_eq_some hfound
    have hinside := List.find?_some hfound
    obtain ⟨hline, hstart, hend⟩ := of_decide_eq_true hinside
    exact Shift.roundTrip_of_inside 0 horder hlength ((Shift.mem_onLine h0).2 ⟨e, he, hline, rfl⟩)
      hstart (Shift.ofEdit_stop_of_patch h hnl he ▸ hend)
  · next hnone =>
    refine Shift.roundTrip_of_clear 0 horder hlength fun s hs => ?_
    obtain ⟨e, he, hline, rfl⟩ := (Shift.mem_onLine h0).1 hs
    have hout := List.find?_eq_none.1 hnone e he
    simp only [decide_eq_true_eq, not_and, Int.not_lt] at hout
    rw [Shift.ofEdit_stop_of_patch h hnl he]
    by_cases hle : c ≤ (Shift.ofEdit code e).2.column
    · exact .inl hle
    · exact .inr (hout hline (Int.not_le.1 hle))

/-- **Edits are taken back, in the text and in the map.**  Edits in order within a text lead to an
edited text, and the edits that take them back lead from there to the text.  If every edit replaces
something by something on one line, they lead from the adjusted map to the mapped mappings of the
map, in their order, each at the column that the edits leave of its column. -/
theorem adjust_undo (h : Edit.InOrder 0 code.length edits) :
    ∃ out, Edit.patch code edits = .ok out ∧ Edit.patch out (Edit.undo code edits) = .ok code ∧
      (edits ≠ [] →
        (∀ e ∈ edits, '\n' ∉ code.slice e.start e.stop ∧ '\n' ∉ e.newText ∧ e.newText ≠ []) →
        ∀ m : SourceMap, (m.adjust code edits).adjust out (Edit.undo code edits)
          = { m with mappings := (m.mappings.filter (·.isMapped)).map fun p => { p with
                generatedColumn := fallBack code edits p.generatedLine p.generatedColumn } }) := by
  obtain ⟨out, hout⟩ := h.exists_patch
  refine ⟨out, hout, Edit.patch_undo h.sorted_eq_self hout, fun hne hedits m => ?_⟩
  have hold : ∀ e ∈ edits, '\n' ∉ code.slice e.start e.stop := fun e he => (hedits e he).1
  have hnew : ∀ e ∈ edits, '\n' ∉ e.newText := fun e he => (hedits e he).2.1
  have hcolumn : ∀ p : Mapping, adjustMapping (Shift.byLine out (Edit.undo code edits))
      (adjustMapping (Shift.byLine code edits) p)
      = { p with generatedColumn := fallBack code edits p.generatedLine p.generatedColumn } :=
    fun p => by
      have hback := Shift.onLine_undo h.sorted_eq_self hout hold hnew (p.generatedLine - 1)
      have htrip := roundTrip_onLine hout hold (fun e he => (hedits e he).2.2) p.generatedLine
        p.generatedColumn
      rw [Shift.roundTrip, ← hback] at htrip
      exact congrArg (fun c => { p with generatedColumn := c }) htrip
  have hmapped : (fun p : Mapping => p.isMapped) ∘ adjustMapping (Shift.byLine code edits)
      = fun p => p.isMapped := rfl
  rw [adjust, if_neg (by simpa using Edit.undo_ne_nil code hne), adjust,
    if_neg (by simpa using hne)]
  simp only [List.filter_map, List.filter_filter, List.map_map, hmapped, Bool.and_self,
    Function.comp_def, hcolumn]

/-- The map of `😀\n😀#ab+#c;` with two more mappings, inside the first name and behind both. -/
def denseMap : SourceMap :=
  { emojiMap with
    mappings := emojiMap.mappings ++ [⟨2, 4, .str "a.js", some 2, some 6, .null⟩,
      ⟨2, 8, .str "a.js", some 3, some 1, .null⟩] }

theorem adjust_undo_emoji :
    ∃ out, Edit.patch "😀\n😀#ab+#c;".toList [⟨3, 6, "$a".toList⟩, ⟨7, 9, "$ccc".toList⟩] = .ok out ∧
      Edit.patch out (Edit.undo "😀\n😀#ab+#c;".toList
        [⟨3, 6, "$a".toList⟩, ⟨7, 9, "$ccc".toList⟩]) = .ok "😀\n😀#ab+#c;".toList ∧
      (((denseMap.adjust "😀\n😀#ab+#c;".toList
          [⟨3, 6, "$a".toList⟩, ⟨7, 9, "$ccc".toList⟩]).adjust out
        (Edit.undo "😀\n😀#ab+#c;".toList
          [⟨3, 6, "$a".toList⟩, ⟨7, 9, "$ccc".toList⟩])).mappings.map (·.generatedColumn))
        = [0, 0, 2, 6, 2, 8] := by
  have horder : Edit.InOrder 0 (List.length "😀\n😀#ab+#c;".toList)
      [⟨3, 6, "$a".toList⟩, ⟨7, 9, "$ccc".toList⟩] := by
    simp only [Edit.InOrder]
    decide
  obtain ⟨out, hout, hback, hmap⟩ := adjust_undo horder
  refine ⟨out, hout, hback, ?_⟩
  rw [hmap (List.cons_ne_nil _ _) (by decide)]
  decide

end Sigil.SourceMap
