import Mathlib.Algebra.BigOperators.Group.List.Basic
import Mathlib.Algebra.Order.Ring.Int
import Mathlib.Data.List.TakeWhile
import Sigil.Proofs.SourceMap.Stream

/-!
# Proofs/SourceMap/Segments — what a reader knows at a segment, by the segments before it

    text    A A A A , , I A A I A ; A C C A , E
            ╰──0──╯     ╰───1───╯   ╰──2──╯   3

The reader cuts a text in two steps and carries five values along.  Here a segment is found where it
stands, its line is counted in the text in front of it, and the five values are sums over all
segments up to it.  Both ways read the same (`decodeMappings_eq_readSegments`): what the reader
carries is the sums so far.
-/

namespace Sigil.SourceMap

/-! ## Segments -/

/-- A comma or a semicolon. -/
def isBreak (c : Char) : Bool := c = ',' || c = ';'

/-- A segment, with all that stands in front of it. -/
structure Segment where
  /-- What stands in front of it. -/
  front : Text
  /-- The segment. -/
  text : Text
deriving DecidableEq, Repr

namespace Segment

/-- The line a segment is on: lines count from 1, and each semicolon ends one. -/
def line (s : Segment) : Nat := 1 + s.front.count ';'

/-- The values of a segment, none if it cannot be decoded. -/
def values (s : Segment) : List Int :=
  match Vlq.decode s.text with
  | .ok vs => vs
  | .error _ => []

theorem values_eq {s : Segment} {vs : List Int} (h : Vlq.decode s.text = .ok vs) :
    s.values = vs := by
  rw [values, h]

/-- The `i`-th value of a segment, `0` where there is none. -/
def value (s : Segment) (i : Nat) : Int := s.values[i]?.getD 0

end Segment

/-- The segments of a text that stands behind another.  A segment starts at a character that is no
break and has a break, or nothing, before it; it goes on up to the next break. -/
def segmentsFrom (front : Text) : Text → List Segment
  | [] => []
  | c :: rest =>
    if !isBreak c && front.getLast?.all isBreak then
      ⟨front, c :: rest.takeWhile (!isBreak ·)⟩ :: segmentsFrom (front ++ [c]) rest
    else segmentsFrom (front ++ [c]) rest

/-- **The non-empty segments of a text**, in order. -/
def segments (text : Text) : List Segment := segmentsFrom [] text

theorem segmentsFrom_break {c : Char} (hc : isBreak c) (front rest : Text) :
    segmentsFrom front (c :: rest) = segmentsFrom (front ++ [c]) rest := by
  rw [segmentsFrom, hc]
  rfl

/-- Inside a segment no other starts. -/
theorem segmentsFrom_append {front a : Text} (hfront : front.getLast?.all isBreak = false)
    (ha : ∀ c ∈ a, isBreak c = false) (rest : Text) :
    segmentsFrom front (a ++ rest) = segmentsFrom (front ++ a) rest := by
  induction a generalizing front with
  | nil => rw [List.nil_append, List.append_nil]
  | cons c a ih =>
    obtain ⟨hc, ha⟩ := List.forall_mem_cons.1 ha
    have hlast : (front ++ [c]).getLast?.all isBreak = false := by
      rw [List.getLast?_concat]
      exact hc
    rw [List.cons_append, segmentsFrom, hfront, Bool.and_false, if_neg Bool.false_ne_true,
      ih hlast ha, List.append_assoc]
    rfl

/-- **A segment and what follows it.** -/
theorem segmentsFrom_segment {front a : Text} (hne : a ≠ []) (hfront : front.getLast?.all isBreak)
    (ha : ∀ c ∈ a, isBreak c = false) {rest : Text} (hrest : AtBreak rest) :
    segmentsFrom front (a ++ rest) = ⟨front, a⟩ :: segmentsFrom (front ++ a) rest := by
  obtain ⟨c, a, rfl⟩ := List.exists_cons_of_ne_nil hne
  obtain ⟨hc, ha⟩ := List.forall_mem_cons.1 ha
  have hall : ∀ b ∈ a, (!isBreak b) = true := fun b hb => by rw [ha b hb, Bool.not_false]
  have hstop : rest.takeWhile (!isBreak ·) = [] := by
    cases rest with
    | nil => rfl
    | cons b rest =>
      have hb : isBreak b := by rcases hrest b rfl with rfl | rfl <;> rfl
      exact List.takeWhile_cons_of_neg (by simp [hb])
  have hlast : (front ++ [c]).getLast?.all isBreak = false := by
    rw [List.getLast?_concat]
    exact hc
  rw [List.cons_append, segmentsFrom, hc, hfront, Bool.not_false, Bool.and_self, if_pos rfl,
    List.takeWhile_append_of_pos hall, hstop, List.append_nil, segmentsFrom_append hlast ha,
    List.append_assoc]
  rfl

/-! ## Sums -/

/-- The sum of the `i`-th values of segments. -/
def sum (i : Nat) (ss : List Segment) : Int := (ss.map (·.value i)).sum

/-- The sum of the first values of the segments on a line. -/
def columnOn (line : Nat) (ss : List Segment) : Int := sum 0 (ss.filter (·.line = line))

/-- The values that run on through the whole text, as sums. -/
def runningOf (ss : List Segment) : Running := ⟨sum 1 ss, sum 2 ss, sum 3 ss, sum 4 ss⟩

theorem sum_concat (i : Nat) (ss : List Segment) (s : Segment) :
    sum i (ss ++ [s]) = sum i ss + s.value i := by
  rw [sum, List.map_append, List.sum_append, List.map_singleton, List.sum_singleton, ← sum]

/-- A segment adds the values that it decodes to. -/
theorem sum_concat_of_decode {s : Segment} {vs : List Int} (h : Vlq.decode s.text = .ok vs)
    {i : Nat} {v : Int} (hv : vs[i]? = some v) (ss : List Segment) :
    sum i (ss ++ [s]) = sum i ss + v := by
  rw [sum_concat, Segment.value, Segment.values_eq h, hv, Option.getD_some]

theorem columnOn_concat (ss : List Segment) (s : Segment) :
    columnOn s.line (ss ++ [s]) = columnOn s.line ss + s.value 0 := by
  have hself : [s].filter (·.line = s.line) = [s] := List.filter_cons_of_pos (decide_eq_true rfl)
  rw [columnOn, List.filter_append, hself, sum_concat, ← columnOn]

theorem runningOf_concat (ss : List Segment) (s : Segment) : runningOf (ss ++ [s])
    = ⟨sum 1 ss + s.value 1, sum 2 ss + s.value 2, sum 3 ss + s.value 3, sum 4 ss + s.value 4⟩ := by
  simp only [runningOf, sum_concat]

/-- On a line behind all segments the columns start again. -/
theorem columnOn_eq_zero {line : Nat} {ss : List Segment} (h : ∀ s ∈ ss, s.line < line) :
    columnOn line ss = 0 := by
  have hnil : ss.filter (·.line = line) = [] :=
    List.filter_eq_nil_iff.2 fun s hs heq => Nat.ne_of_lt (h s hs) (of_decide_eq_true heq)
  rw [columnOn, hnil]
  rfl

/-! ## Reading by sums -/

variable (sources names : List Json)

/-- Reads a segment that stands behind others. -/
def readSegment (before : List Segment) (s : Segment) : Except Flaw (Mapping × Running) :=
  decodeSegment sources names s.line s.text (columnOn s.line before) (runningOf before)

/-- Reads segments that stand behind others, each by the sums up to it. -/
def readSegments (before : List Segment) : List Segment → Except Flaw (List Mapping)
  | [] => .ok []
  | s :: rest =>
    match readSegment sources names before s with
    | .error f => .error f
    | .ok (p, _) =>
      match readSegments (before ++ [s]) rest with
      | .error f => .error f
      | .ok ps => .ok (p :: ps)

section Shapes

variable {before : List Segment} {s : Segment}

theorem readSegment_of_error {f : Vlq.Flaw} (h : Vlq.decode s.text = .error f) :
    readSegment sources names before s = .error (.segment f) := by
  rw [readSegment, decodeSegment, h]

/-- One value is a column. -/
theorem readSegment_one {dc : Int} (h : Vlq.decode s.text = .ok [dc]) :
    readSegment sources names before s = .ok
      ({ generatedLine := s.line, generatedColumn := columnOn s.line (before ++ [s]) },
        runningOf (before ++ [s])) := by
  rw [readSegment, decodeSegment, h, columnOn_concat, runningOf_concat]
  simp [Segment.value, Segment.values_eq h, runningOf]

/-- Four values are a column and an original position. -/
theorem readSegment_four {dc ds dl dk : Int} (h : Vlq.decode s.text = .ok [dc, ds, dl, dk]) :
    readSegment sources names before s =
      match entry? sources (sum 1 (before ++ [s])) with
      | none => .error (.sourceRange (sum 1 (before ++ [s])) s.line)
      | some v => .ok (⟨s.line, columnOn s.line (before ++ [s]), v,
          some (sum 2 (before ++ [s]) + 1), some (sum 3 (before ++ [s])), .null⟩,
          runningOf (before ++ [s])) := by
  have hsource : sum 1 (before ++ [s]) = sum 1 before + ds := sum_concat_of_decode h rfl before
  rw [readSegment, decodeSegment, h, hsource, columnOn_concat, runningOf_concat]
  cases hentry : entry? sources (sum 1 before + ds) <;>
    simp [hentry, sum_concat, Segment.value, Segment.values_eq h, runningOf]

/-- Five values are a column, an original position and a name. -/
theorem readSegment_five {dc ds dl dk dn : Int}
    (h : Vlq.decode s.text = .ok [dc, ds, dl, dk, dn]) :
    readSegment sources names before s =
      match entry? names (sum 4 (before ++ [s])) with
      | none => .error (.nameRange (sum 4 (before ++ [s])) s.line)
      | some n =>
        match entry? sources (sum 1 (before ++ [s])) with
        | none => .error (.sourceRange (sum 1 (before ++ [s])) s.line)
        | some v => .ok (⟨s.line, columnOn s.line (before ++ [s]), v,
            some (sum 2 (before ++ [s]) + 1), some (sum 3 (before ++ [s])), n⟩,
            runningOf (before ++ [s])) := by
  have hsource : sum 1 (before ++ [s]) = sum 1 before + ds := sum_concat_of_decode h rfl before
  have hname : sum 4 (before ++ [s]) = sum 4 before + dn := sum_concat_of_decode h rfl before
  rw [readSegment, decodeSegment, h, hsource, hname, columnOn_concat, runningOf_concat]
  cases hn : entry? names (sum 4 before + dn) with
  | none => simp [hn, runningOf]
  | some n =>
    cases hentry : entry? sources (sum 1 before + ds) <;>
      simp [hn, hentry, sum_concat, Segment.value, Segment.values_eq h, runningOf]

/-- No other number of values has a meaning. -/
theorem readSegment_other {vs : List Int} (h : Vlq.decode s.text = .ok vs)
    (hlength : vs.length ∉ [1, 4, 5]) :
    readSegment sources names before s = .error (.arity s.text s.line) := by
  rw [readSegment, decodeSegment, h]
  split
  next heq => cases heq
  next heq =>
    obtain rfl := Except.ok.inj heq
    exact absurd (by simp) hlength
  next heq =>
    obtain rfl := Except.ok.inj heq
    exact absurd (by simp) hlength
  next heq =>
    obtain rfl := Except.ok.inj heq
    exact absurd (by simp) hlength
  next => rfl

end Shapes

/-- The numbers of values. -/
theorem arity_cases (vs : List Int) : (∃ a, vs = [a]) ∨ (∃ a b c d, vs = [a, b, c, d]) ∨
    (∃ a b c d e, vs = [a, b, c, d, e]) ∨ vs.length ∉ [1, 4, 5] := by
  match vs with
  | [a] => exact .inl ⟨a, rfl⟩
  | [a, b, c, d] => exact .inr (.inl ⟨a, b, c, d, rfl⟩)
  | [a, b, c, d, e] => exact .inr (.inr (.inl ⟨a, b, c, d, e, rfl⟩))
  | [] | [_, _] | [_, _, _] | _ :: _ :: _ :: _ :: _ :: _ :: _ =>
    exact .inr (.inr (.inr (by simp)))

/-- **A segment adds its values** to the column and to what runs on. -/
theorem running_of_readSegment {before : List Segment} {s : Segment} {p : Mapping} {r : Running}
    (h : readSegment sources names before s = .ok (p, r)) :
    p.generatedColumn = columnOn s.line (before ++ [s]) ∧ r = runningOf (before ++ [s]) := by
  cases hdecode : Vlq.decode s.text with
  | error f =>
    rw [readSegment_of_error sources names hdecode] at h
    cases h
  | ok vs =>
    obtain ⟨a, rfl⟩ | ⟨a, b, c, d, rfl⟩ | ⟨a, b, c, d, e, rfl⟩ | hlength := arity_cases vs
    · rw [readSegment_one sources names hdecode] at h
      obtain ⟨rfl, rfl⟩ := Prod.mk.inj (Except.ok.inj h)
      exact ⟨rfl, rfl⟩
    · rw [readSegment_four sources names hdecode] at h
      split at h
      · cases h
      · obtain ⟨rfl, rfl⟩ := Prod.mk.inj (Except.ok.inj h)
        exact ⟨rfl, rfl⟩
    · rw [readSegment_five sources names hdecode] at h
      split at h
      · cases h
      split at h
      · cases h
      · obtain ⟨rfl, rfl⟩ := Prod.mk.inj (Except.ok.inj h)
        exact ⟨rfl, rfl⟩
    · rw [readSegment_other sources names hdecode hlength] at h
      cases h

/-! ## From left to right -/

/-- Reads on behind a text, carrying the sums over its segments. -/
def readBehind (front : Text) (before : List Segment) (text : Text) :
    Except Flaw (List Mapping) :=
  readFrom sources names (1 + front.count ';') (columnOn (1 + front.count ';') before)
    (runningOf before) text

theorem readBehind_comma (front : Text) (before : List Segment) (text : Text) :
    readBehind sources names front before (',' :: text)
      = readBehind sources names (front ++ [',']) before text := by
  have hcount : (front ++ [',']).count ';' = front.count ';' := by simp
  rw [readBehind, readBehind, hcount, readFrom_comma]

/-- Behind a semicolon the columns start again. -/
theorem readBehind_semicolon {front : Text} {before : List Segment}
    (hbefore : ∀ s ∈ before, s.line ≤ 1 + front.count ';') (text : Text) :
    readBehind sources names front before (';' :: text)
      = readBehind sources names (front ++ [';']) before text := by
  have hcount : 1 + (front ++ [';']).count ';' = 1 + front.count ';' + 1 := by simp [Nat.add_assoc]
  have hzero : columnOn (1 + front.count ';' + 1) before = 0 :=
    columnOn_eq_zero fun s hs => Nat.lt_succ_of_le (hbefore s hs)
  rw [readBehind, readBehind, hcount, hzero, readFrom_semicolon]

theorem readBehind_segment {front a text : Text} (hne : a ≠ []) (ha : ∀ c ∈ a, isBreak c = false)
    (htext : AtBreak text) (before : List Segment) :
    readBehind sources names front before (a ++ text) =
      match readSegment sources names before ⟨front, a⟩ with
      | .error f => .error f
      | .ok (p, _) =>
        match readBehind sources names (front ++ a) (before ++ [⟨front, a⟩]) text with
        | .error f => .error f
        | .ok ps => .ok (p :: ps) := by
  have hcomma : ',' ∉ a := fun hmem => by cases ha _ hmem
  have hsemicolon : ';' ∉ a := fun hmem => by cases ha _ hmem
  have hcount : (front ++ a).count ';' = front.count ';' := by
    rw [List.count_append, List.count_eq_zero_of_not_mem hsemicolon, Nat.add_zero]
  have hhere : decodeSegment sources names (1 + front.count ';') a
      (columnOn (1 + front.count ';') before) (runningOf before)
      = readSegment sources names before ⟨front, a⟩ := rfl
  rw [readBehind, readFrom_append sources names hne hcomma hsemicolon htext, hhere]
  cases hread : readSegment sources names before ⟨front, a⟩ with
  | error f => rfl
  | ok q =>
    obtain ⟨p, r⟩ := q
    obtain ⟨hcolumn, rfl⟩ := running_of_readSegment sources names hread
    have hline : Segment.line ⟨front, a⟩ = 1 + front.count ';' := rfl
    rw [hline] at hcolumn
    have hbehind : readBehind sources names (front ++ a) (before ++ [⟨front, a⟩]) text
        = readFrom sources names (1 + front.count ';') p.generatedColumn
          (runningOf (before ++ [⟨front, a⟩])) text := by
      rw [readBehind, hcount, hcolumn]
    cases hrest : readFrom sources names (1 + front.count ';') p.generatedColumn
      (runningOf (before ++ [⟨front, a⟩])) text <;> simp only [hbehind, hrest]

/-- A text that does not start with a break starts with a segment. -/
theorem exists_segment {c : Char} (hc : isBreak c = false) (text : Text) :
    ∃ a rest, c :: text = a ++ rest ∧ a ≠ [] ∧ (∀ b ∈ a, isBreak b = false) ∧ AtBreak rest := by
  refine ⟨(c :: text).takeWhile (!isBreak ·), (c :: text).dropWhile (!isBreak ·),
    List.takeWhile_append_dropWhile.symm, ?_, fun b hb => ?_, fun b hb => ?_⟩
  · rw [List.takeWhile_cons_of_pos (by simp [hc])]
    exact List.cons_ne_nil _ _
  · simpa using List.mem_takeWhile_imp hb
  · have hstop := List.head?_dropWhile_not (!isBreak ·) (c :: text)
    rw [Option.mem_def.1 hb] at hstop
    exact Decidable.or_iff_not_imp_left.2 (by simpa [isBreak] using hstop)

/-- **Reading on from a seam** is reading the segments from there on, each by the sums up to it. -/
theorem readBehind_eq_readSegments {front text : Text} {before : List Segment}
    (hseam : front.getLast?.all isBreak ∨ AtBreak text)
    (hbefore : ∀ s ∈ before, s.line ≤ 1 + front.count ';') :
    readBehind sources names front before text
      = readSegments sources names before (segmentsFrom front text) := by
  induction hlength : text.length using Nat.strongRecOn generalizing front text before with
  | ind n ih =>
    subst hlength
    -- a longer front has no fewer semicolons
    have hlater : ∀ a, ∀ s ∈ before, s.line ≤ 1 + (front ++ a).count ';' := fun a s hs => by
      rw [List.count_append]
      exact (hbefore s hs).trans (Nat.add_le_add_left (Nat.le_add_right _ _) 1)
    cases text with
    | nil => rfl
    | cons c text =>
      cases hc : isBreak c with
      | true =>
        have hlast : (front ++ [c]).getLast?.all isBreak := by
          rw [List.getLast?_concat]
          exact hc
        rw [segmentsFrom_break hc,
          ← ih text.length (Nat.lt_succ_self _) (.inl hlast) (hlater [c]) rfl]
        rcases (by simpa [isBreak] using hc : c = ',' ∨ c = ';') with rfl | rfl
        · exact readBehind_comma sources names front before text
        · exact readBehind_semicolon sources names hbefore text
      | false =>
        have hfront : front.getLast?.all isBreak := hseam.resolve_right fun hbreak => by
          rcases hbreak c rfl with rfl | rfl <;> cases hc
        obtain ⟨a, rest, hsplit, hne, ha, hrest⟩ := exists_segment hc text
        have hshorter : rest.length < (c :: text).length := by
          rw [hsplit, List.length_append]
          exact Nat.lt_add_of_pos_left (List.length_pos_iff.2 hne)
        have hlines : ∀ s ∈ before ++ [⟨front, a⟩], s.line ≤ 1 + (front ++ a).count ';' := by
          refine List.forall_mem_append.2 ⟨hlater a, List.forall_mem_singleton.2 ?_⟩
          rw [List.count_append, Segment.line]
          exact Nat.add_le_add_left (Nat.le_add_right _ _) 1
        rw [hsplit, readBehind_segment sources names hne ha hrest,
          segmentsFrom_segment hne hfront ha hrest, readSegments,
          ih rest.length hshorter (.inr hrest) hlines rfl]

/-- **The mappings of a text are read segment by segment**, each by the sums up to it. -/
theorem decodeMappings_eq_readSegments (text : Text) :
    decodeMappings sources names text = readSegments sources names [] (segments text) := by
  have hstart : ([] : Text).getLast?.all isBreak ∨ AtBreak text := .inl rfl
  rw [decodeMappings_eq_readFrom]
  exact readBehind_eq_readSegments sources names hstart fun s hs => absurd hs List.not_mem_nil

end Sigil.SourceMap
