import Sigil.Proofs.Shift.Monotone
import Sigil.SourceMap.Adjust

/-!
# Proofs/SourceMap/Lookup — an adjusted map is looked up like the map it comes from

A lookup takes the closest mapping at or before a column.  Where mappings ascend along their lines,
that is the last one of the line which does not lie behind the column (`closest?_eq`).

    d ≤ c  ⟺  adjust d ≤ adjust c

would let lookups and edits pass each other by, and monotonicity gives one direction.  The other
fails inside replaced spans only, whose columns all fall onto one: hence `Steady`.
-/

namespace Sigil.SourceMap

/-! ## The closest mapping -/

/-- The original position that a mapping gives. -/
def origin (p : Mapping) : Original :=
  if p.isMapped then ⟨p.source, p.originalLine, p.originalColumn, p.name⟩ else {}

/-- **The closest mapping at or before a column** of a line; of several at one column, the last. -/
def closest? (m : SourceMap) (line column : Int) : Option Mapping :=
  (((m.mappings.filter (·.generatedLine = line)).mergeSort fun a b =>
    decide (a.generatedColumn ≤ b.generatedColumn)).takeWhile
      (·.generatedColumn ≤ column)).getLast?

theorem originalPosition_eq (m : SourceMap) (line column : Int) :
    m.originalPosition line column = ((m.closest? line column).map origin).getD {} := by
  rw [originalPosition, closest?]
  cases List.getLast? _ <;> rfl

/-- Along each line the generated columns ascend. -/
def Ascending (m : SourceMap) : Prop :=
  m.mappings.Pairwise fun a b =>
    a.generatedLine = b.generatedLine → a.generatedColumn ≤ b.generatedColumn

/-- Where a property holds of a front part of a list only, that part is all that has it. -/
theorem takeWhile_eq_filter {α : Type} {p : α → Bool} {xs : List α}
    (h : xs.Pairwise fun a b => p b = true → p a = true) : xs.takeWhile p = xs.filter p := by
  induction xs with
  | nil => rfl
  | cons x xs ih =>
    obtain ⟨hhead, htail⟩ := List.pairwise_cons.1 h
    cases hx : p x with
    | true => rw [List.takeWhile_cons_of_pos hx, List.filter_cons_of_pos hx, ih htail]
    | false =>
      have hrest : ∀ y ∈ xs, ¬p y = true := fun y hy hpy => by simp [hhead y hy hpy] at hx
      rw [List.takeWhile_cons_of_neg (by simp [hx]), List.filter_cons_of_neg (by simp [hx]),
        List.filter_eq_nil_iff.2 hrest]

/-- **In an ascending map the closest mapping is the last that is not behind the column.** -/
theorem closest?_eq {m : SourceMap} (h : m.Ascending) (line column : Int) :
    m.closest? line column = (m.mappings.filter fun p =>
      p.generatedColumn ≤ column && p.generatedLine = line).getLast? := by
  have hline : (m.mappings.filter (·.generatedLine = line)).Pairwise fun a b =>
      a.generatedColumn ≤ b.generatedColumn := by
    rw [List.pairwise_filter]
    refine h.imp fun {a b} hab ha hb => ?_
    simp only [decide_eq_true_eq] at ha hb
    exact hab (ha.trans hb.symm)
  rw [closest?, List.mergeSort_of_pairwise (hline.imp fun hab => decide_eq_true hab),
    takeWhile_eq_filter, List.filter_filter]
  refine hline.imp fun {a b} hab hb => ?_
  simp only [decide_eq_true_eq] at hb ⊢
  exact Int.le_trans hab hb

/-! ## Columns that edits leave apart -/

variable {m : SourceMap} {code out : Text} {edits : List Edit} {line c : Int}

/-- The replaced span lies on a generated line, counted from 1. -/
def OnLine (code : Text) (line : Int) (e : Edit) : Prop :=
  (Text.position code.lineStarts e.start).line = line - 1

/-- **A column onto which no mapping falls from behind**: no replaced span covers it, or it starts
one that something replaces and in which no mapping lies. -/
inductive Steady (m : SourceMap) (code : Text) (edits : List Edit) (line c : Int) : Prop
  /-- Every span of the line starts behind the column, or ends at it or before. -/
  | clear (h : ∀ e ∈ edits, OnLine code line e →
      c < code.unitColumn e.start ∨ code.unitColumn e.stop ≤ c)
  /-- The column is the start of a span. -/
  | start (e : Edit) (he : e ∈ edits) (hline : OnLine code line e)
      (hc : c = code.unitColumn e.start) (hold : e.start < e.stop) (hnew : e.newText ≠ [])
      (hempty : ∀ p ∈ m.mappings, p.generatedLine = line →
        ¬(c < p.generatedColumn ∧ p.generatedColumn < code.unitColumn e.stop))

/-- **No mapping behind a steady column falls onto it or before it.** -/
theorem adjust_le_iff (h : Edit.patch code edits = .ok out)
    (hnl : ∀ e ∈ edits, '\n' ∉ code.slice e.start e.stop) (hc : Steady m code edits line c)
    {p : Mapping} (hp : p ∈ m.mappings) (hline : p.generatedLine = line) :
    Shift.adjust p.generatedColumn (Shift.onLine code edits (line - 1))
      ≤ Shift.adjust c (Shift.onLine code edits (line - 1)) ↔ p.generatedColumn ≤ c := by
  have horder := Shift.inOrder_onLine h (line - 1)
  have h0 : ∀ e ∈ edits, 0 ≤ e.start := fun e he => (Edit.span_of_patch h he).1
  refine ⟨fun hle => Int.not_lt.1 fun hlt => absurd hle (Int.not_le.2 ?_),
    Shift.adjustFrom_mono 0 horder⟩
  cases hc with
  | clear hclear =>
    refine Shift.adjustFrom_lt_of_clear 0 horder (fun s hs => ?_) hlt
    obtain ⟨e, he, hl, rfl⟩ := (Shift.mem_onLine h0).1 hs
    rw [Shift.ofEdit_stop_of_patch h hnl he]
    exact hclear e he hl
  | start e he hl hc hold hnew hempty =>
    have hs := (Shift.mem_onLine h0).2 ⟨e, he, hl, rfl⟩
    have hbehind := hempty p hp hline
    rw [hc] at hlt hbehind ⊢
    refine Shift.adjustFrom_lt_of_start 0 horder hs
      (Shift.ofEdit_originalLength_pos (h0 e he) hold (Edit.span_of_patch h he).2.2)
      (Shift.ofEdit_newLength_pos hnew) ?_
    rw [Shift.ofEdit_stop_of_patch h hnl he]
    omega

/-! ## The adjusted map -/

/-- Edits drop the unmapped mappings and move the others. -/
theorem mappings_adjust (m : SourceMap) (code : Text) {edits : List Edit} (hne : edits ≠ []) :
    (m.adjust code edits).mappings
      = (m.mappings.filter (·.isMapped)).map (adjustMapping (Shift.byLine code edits)) := by
  rw [adjust, if_neg (by simpa using hne)]

/-- **An adjusted map ascends where the map does.** -/
theorem Ascending.adjust (hm : m.Ascending) (h : Edit.patch code edits = .ok out) :
    (m.adjust code edits).Ascending := by
  by_cases hne : edits = []
  · rw [SourceMap.adjust, if_pos (by simpa using hne)]
    exact hm
  · rw [Ascending, mappings_adjust m code hne, List.pairwise_map, List.pairwise_filter]
    refine hm.imp fun {a b} hab _ _ hline => ?_
    have horder := Shift.inOrder_onLine h (a.generatedLine - 1)
    have hmono := Shift.adjustFrom_mono 0 horder (hab hline)
    rw [adjustMapping, adjustMapping, ← show a.generatedLine = b.generatedLine from hline]
    exact hmono

/-- **The closest mapping of an adjusted map** at a column up to which just the mappings up to `c`
fall: the last mapped one that is not behind `c`, moved. -/
theorem closest?_adjust_of_le_iff (hm : m.Ascending) (h : Edit.patch code edits = .ok out)
    (hne : edits ≠ []) {c' : Int} (hle : ∀ p ∈ m.mappings, p.generatedLine = line →
      (Shift.adjust p.generatedColumn (Shift.onLine code edits (line - 1)) ≤ c'
        ↔ p.generatedColumn ≤ c)) :
    (m.adjust code edits).closest? line c'
      = ((m.mappings.filter fun p => p.generatedColumn ≤ c && p.generatedLine = line).filter
          (·.isMapped)).getLast?.map (adjustMapping (Shift.byLine code edits)) := by
  rw [closest?_eq (hm.adjust h), mappings_adjust m code hne, List.filter_map, List.getLast?_map,
    List.filter_filter, List.filter_filter]
  refine congrArg (fun ps => (List.getLast? ps).map _) (List.filter_congr fun p hp => ?_)
  by_cases hline : p.generatedLine = line
  · have hle := hle p hp hline
    rw [← hline] at hle ⊢
    simp only [Function.comp_apply, adjustMapping, decide_true, Bool.and_true,
      Bool.and_comm _ p.isMapped]
    exact congrArg (p.isMapped && ·) (decide_eq_decide.2 hle)
  · simp [adjustMapping, hline]

/-- The same at the place where a steady column goes. -/
theorem closest?_adjust (hm : m.Ascending) (h : Edit.patch code edits = .ok out) (hne : edits ≠ [])
    (hnl : ∀ e ∈ edits, '\n' ∉ code.slice e.start e.stop) (hc : Steady m code edits line c) :
    (m.adjust code edits).closest? line (Shift.adjust c (Shift.onLine code edits (line - 1)))
      = ((m.mappings.filter fun p => p.generatedColumn ≤ c && p.generatedLine = line).filter
          (·.isMapped)).getLast?.map (adjustMapping (Shift.byLine code edits)) :=
  closest?_adjust_of_le_iff hm h hne fun _ hp hline => adjust_le_iff h hnl hc hp hline

/-- The last entry stays the last if a filter keeps it. -/
theorem getLast?_filter_of_last {α : Type} {q : α → Bool} {xs : List α}
    (h : ∀ x, xs.getLast? = some x → q x = true) : (xs.filter q).getLast? = xs.getLast? := by
  rcases List.eq_nil_or_concat xs with rfl | ⟨ys, x, rfl⟩
  · rfl
  · have hx : q x = true := h x (by simp)
    simp [List.filter_append, hx]

/-- **What a lookup finds is what it found before the edits**, at every steady column where it does
not meet an unmapped segment. -/
theorem originalPosition_adjust (hm : m.Ascending) (h : Edit.patch code edits = .ok out)
    (hne : edits ≠ []) (hnl : ∀ e ∈ edits, '\n' ∉ code.slice e.start e.stop)
    (hc : Steady m code edits line c) (hmapped : ∀ p, m.closest? line c = some p → p.isMapped) :
    (m.adjust code edits).originalPosition line
        (Shift.adjust c (Shift.onLine code edits (line - 1)))
      = m.originalPosition line c := by
  rw [closest?_eq hm] at hmapped
  rw [originalPosition_eq, originalPosition_eq, closest?_adjust hm h hne hnl hc,
    getLast?_filter_of_last hmapped, closest?_eq hm, Option.map_map]
  -- adjusting moves the generated column only
  rfl

/-- A map of `😀\n😀#ab+#c;`, with an unmapped segment at the column of a mapped one. -/
def emojiMap : SourceMap where
  mappings := [
    ⟨1, 0, .str "a.js", some 1, some 0, .null⟩,
    ⟨2, 0, .str "a.js", some 2, some 0, .null⟩,
    { generatedLine := 2, generatedColumn := 2 },
    ⟨2, 2, .str "a.js", some 2, some 4, .str "ab"⟩,
    ⟨2, 6, .str "a.js", some 3, some 0, .str "c"⟩]
  sources := [.str "a.js"]
  names := [.str "ab", .str "c"]

/-- Behind both names, whose replacements are shorter and longer, the column goes from 8 to 9, and
at the start of the second from 6 to 5; both are looked up at the second name. -/
theorem originalPosition_adjust_emoji :
    Shift.adjust 8 (Shift.onLine "😀\n😀#ab+#c;".toList
        [⟨7, 9, "$ccc".toList⟩, ⟨3, 6, "$a".toList⟩] (2 - 1)) = 9 ∧
      Shift.adjust 6 (Shift.onLine "😀\n😀#ab+#c;".toList
        [⟨7, 9, "$ccc".toList⟩, ⟨3, 6, "$a".toList⟩] (2 - 1)) = 5 ∧
      (emojiMap.adjust "😀\n😀#ab+#c;".toList
        [⟨7, 9, "$ccc".toList⟩, ⟨3, 6, "$a".toList⟩]).originalPosition 2 9
          = ⟨.str "a.js", some 3, some 0, .str "c"⟩ ∧
      (emojiMap.adjust "😀\n😀#ab+#c;".toList
        [⟨7, 9, "$ccc".toList⟩, ⟨3, 6, "$a".toList⟩]).originalPosition 2 5
          = ⟨.str "a.js", some 3, some 0, .str "c"⟩ := by
  have hm : emojiMap.Ascending := by simp [Ascending, emojiMap]
  have h : Edit.patch "😀\n😀#ab+#c;".toList [⟨7, 9, "$ccc".toList⟩, ⟨3, 6, "$a".toList⟩]
      = .ok "😀\n😀$a+$ccc;".toList := by
    rw [Edit.patch, Edit.sorted_of_perm (.swap _ _ _) (by decide)]
    rfl
  have hnl : ∀ e ∈ ([⟨7, 9, "$ccc".toList⟩, ⟨3, 6, "$a".toList⟩] : List Edit),
      '\n' ∉ Text.slice "😀\n😀#ab+#c;".toList e.start e.stop := by decide
  have hmapped : ∀ c ∈ [(8 : Int), 6], ∀ p, emojiMap.closest? 2 c = some p → p.isMapped := by
    intro c hc p hp
    rw [closest?_eq hm] at hp
    simp only [List.mem_cons, List.not_mem_nil, or_false] at hc
    rcases hc with rfl | rfl <;> · cases hp; rfl
  have hclear : Steady emojiMap "😀\n😀#ab+#c;".toList
      [⟨7, 9, "$ccc".toList⟩, ⟨3, 6, "$a".toList⟩] 2 8 := by
    refine .clear ?_
    simp only [OnLine]
    decide
  have hstart : Steady emojiMap "😀\n😀#ab+#c;".toList
      [⟨7, 9, "$ccc".toList⟩, ⟨3, 6, "$a".toList⟩] 2 6 := by
    refine .start ⟨7, 9, "$ccc".toList⟩ (by simp) ?_ (by decide) (by decide) (by decide) ?_
    · simp only [OnLine]
      decide
    · simp only [emojiMap]
      decide
  have hbehind := originalPosition_adjust hm h (by simp) hnl hclear (hmapped 8 (by simp))
  have hsecond := originalPosition_adjust hm h (by simp) hnl hstart (hmapped 6 (by simp))
  have hshifts : Shift.onLine "😀\n😀#ab+#c;".toList
      [⟨7, 9, "$ccc".toList⟩, ⟨3, 6, "$a".toList⟩] (2 - 1) = [⟨2, 3, 2⟩, ⟨6, 2, 4⟩] := by
    rw [Shift.onLine, Shift.byLine, Edit.sorted_of_perm (.swap _ _ _) (by decide)]
    rfl
  have hnine : Shift.adjust 8 (Shift.onLine "😀\n😀#ab+#c;".toList
      [⟨7, 9, "$ccc".toList⟩, ⟨3, 6, "$a".toList⟩] (2 - 1)) = 9 := by rw [hshifts]; rfl
  have hfive : Shift.adjust 6 (Shift.onLine "😀\n😀#ab+#c;".toList
      [⟨7, 9, "$ccc".toList⟩, ⟨3, 6, "$a".toList⟩] (2 - 1)) = 5 := by rw [hshifts]; rfl
  rw [hnine] at hbehind
  rw [hfive] at hsecond
  refine ⟨hnine, hfive, hbehind.trans ?_, hsecond.trans ?_⟩
  · rw [originalPosition_eq, closest?_eq hm]
    rfl
  · rw [originalPosition_eq, closest?_eq hm]
    rfl

end Sigil.SourceMap
