import Sigil.Proofs.SourceMap.Segments
import Sigil.Proofs.SourceMap.Spellings

/-!
# Proofs/SourceMap/Refused — when a segment is refused, and what it says if it is not

    readSegment fails  ⟺  Refused       the flaw cannot be shown  ⟺  Overlong

Whether a segment is refused depends on the values before it as far as they were added up.  An index
is looked up where the sum has come to lie; a negative one counts as out of the table, and not from
its end.  The flaw of a segment names the index, which may have more digits than can be shown.
-/

namespace Sigil.SourceMap

/-! ## What is asked of a segment -/

/-- The entry of a table at an index that lies in the table. -/
def Entry (table : List Json) (index : Int) (v : Json) : Prop :=
  0 ≤ index ∧ table[index.toNat]? = some v

theorem entry?_eq_some {table : List Json} {index : Int} {v : Json} :
    entry? table index = some v ↔ Entry table index v := by
  rw [Entry, entry?]
  split
  next hneg =>
    exact ⟨fun h => absurd h.symm (Option.some_ne_none v), fun h => absurd h.1 (Int.not_le.2 hneg)⟩
  next hneg => exact ⟨fun h => ⟨Int.not_lt.1 hneg, h⟩, And.right⟩

theorem entry?_eq_none {table : List Json} {index : Int} :
    entry? table index = none ↔ ¬(0 ≤ index ∧ index < table.length) := by
  rw [show entry? table index = if index < 0 then none else table[index.toNat]? from rfl]
  split
  next hneg => exact ⟨fun _ h => absurd h.1 (Int.not_le.2 hneg), fun _ => rfl⟩
  next hneg =>
    rw [List.getElem?_eq_none_iff]
    omega

/-- **Why a segment is refused** behind others. -/
inductive Refused (sources names : List Json) (before : List Segment) (s : Segment) : Prop
  /-- A character is no digit. -/
  | character (c : Char) (hc : c ∈ s.text) (hno : c ∉ Vlq.digits)
  /-- The last digit is one after which a value goes on. -/
  | truncated (c : Char) (hc : s.text.getLast? = some c) (hmore : c ∈ Vlq.digits.drop 32)
  /-- The number of values is none of those that have a meaning. -/
  | arity (vs : List Int) (hvs : Vlq.decode s.text = .ok vs) (hno : vs.length ∉ [1, 4, 5])
  /-- The source would lie outside its table. -/
  | source (hlength : s.values.length ∈ [4, 5])
      (hout : ¬(0 ≤ sum 1 (before ++ [s]) ∧ sum 1 (before ++ [s]) < sources.length))
  /-- The name would lie outside its table. -/
  | name (hlength : s.values.length = 5)
      (hout : ¬(0 ≤ sum 4 (before ++ [s]) ∧ sum 4 (before ++ [s]) < names.length))

/-- **An index out of its table that cannot be shown**, for it has too many digits.  That of the
name is looked up before that of the source. -/
inductive Overlong (sources names : List Json) (before : List Segment) (s : Segment) : Prop
  /-- It is that of the name. -/
  | name (hlength : s.values.length = 5)
      (hout : ¬(0 ≤ sum 4 (before ++ [s]) ∧ sum 4 (before ++ [s]) < names.length))
      (hlong : 10 ^ Json.digitLimit ≤ (sum 4 (before ++ [s])).natAbs)
  /-- It is that of the source, and the name is in its table. -/
  | source (hlength : s.values.length ∈ [4, 5])
      (hname : s.values.length = 5 →
        0 ≤ sum 4 (before ++ [s]) ∧ sum 4 (before ++ [s]) < names.length)
      (hout : ¬(0 ≤ sum 1 (before ++ [s]) ∧ sum 1 (before ++ [s]) < sources.length))
      (hlong : 10 ^ Json.digitLimit ≤ (sum 1 (before ++ [s])).natAbs)

/-- **What a segment says** behind others. -/
structure Says (sources names : List Json) (before : List Segment) (s : Segment) (p : Mapping) :
    Prop where
  line : p.generatedLine = s.line
  column : p.generatedColumn = columnOn s.line (before ++ [s])
  unmapped : s.values.length = 1 → p.source = .null ∧ p.originalLine = none ∧
    p.originalColumn = none ∧ p.name = .null
  mapped : s.values.length ∈ [4, 5] → Entry sources (sum 1 (before ++ [s])) p.source ∧
    p.originalLine = some (sum 2 (before ++ [s]) + 1) ∧
    p.originalColumn = some (sum 3 (before ++ [s]))
  nameless : s.values.length = 4 → p.name = .null
  named : s.values.length = 5 → Entry names (sum 4 (before ++ [s])) p.name

/-! ## Reading a segment -/

variable {sources names : List Json} {before : List Segment} {s : Segment}

theorem decode_eq_values (h : s.values ≠ []) : Vlq.decode s.text = .ok s.values := by
  rw [Segment.values] at h ⊢
  cases hdecode : Vlq.decode s.text with
  | error f =>
    rw [hdecode] at h
    exact absurd rfl h
  | ok vs => rfl

/-- A segment with an original position. -/
theorem decode_of_length (h : s.values.length ∈ [4, 5]) :
    (∃ a b c d, Vlq.decode s.text = .ok [a, b, c, d]) ∨
      ∃ a b c d e, Vlq.decode s.text = .ok [a, b, c, d, e] := by
  have hne : s.values ≠ [] := fun hnil => by
    rw [hnil] at h
    exact absurd h (by decide)
  rw [decode_eq_values hne]
  obtain ⟨a, ha⟩ | ⟨a, b, c, d, ha⟩ | ⟨a, b, c, d, e, ha⟩ | hlength := arity_cases s.values
  · rw [ha] at h
    exact absurd h (by simp)
  · exact .inl ⟨a, b, c, d, congrArg _ ha⟩
  · exact .inr ⟨a, b, c, d, e, congrArg _ ha⟩
  · exact absurd (List.mem_cons_of_mem 1 h) hlength

/-- **What is to be refused is refused**, with whatever flaw comes first. -/
theorem Refused.exists_error (h : Refused sources names before s) :
    ∃ f, readSegment sources names before s = .error f := by
  cases h with
  | character c hc hno =>
    obtain ⟨f, hf⟩ := Vlq.decode_fails_iff.2 (.inl ⟨c, hc, hno⟩)
    exact ⟨_, readSegment_of_error sources names hf⟩
  | truncated c hc hmore =>
    obtain ⟨f, hf⟩ := Vlq.decode_fails_iff.2 (.inr ⟨c, hc, hmore⟩)
    exact ⟨_, readSegment_of_error sources names hf⟩
  | arity vs hvs hno => exact ⟨_, readSegment_other sources names hvs hno⟩
  | source hlength hout =>
    have hnone := entry?_eq_none.2 hout
    obtain ⟨a, b, c, d, hvs⟩ | ⟨a, b, c, d, e, hvs⟩ := decode_of_length hlength
    · rw [readSegment_four sources names hvs, hnone]
      exact ⟨_, rfl⟩
    · rw [readSegment_five sources names hvs, hnone]
      cases entry? names (sum 4 (before ++ [s])) <;> exact ⟨_, rfl⟩
  | name hlength hout =>
    have hnone := entry?_eq_none.2 hout
    have hmem : s.values.length ∈ [4, 5] := by
      rw [hlength]
      decide
    obtain ⟨a, b, c, d, hvs⟩ | ⟨a, b, c, d, e, hvs⟩ := decode_of_length hmem
    · rw [Segment.values_eq hvs] at hlength
      cases hlength
    · rw [readSegment_five sources names hvs, hnone]
      exact ⟨_, rfl⟩

theorem isShortInt_eq_false {i : Int} :
    Json.isShortInt i = false ↔ 10 ^ Json.digitLimit ≤ i.natAbs := by
  rw [Json.isShortInt, decide_eq_false_iff_not,
    Nat.length_toDigits_le_iff (by decide) (by decide), Nat.not_lt]

/-- **What the flaw of a segment names**: no index, for there is no original position; the index of
the name, which is looked up first; or that of the source. -/
theorem flaw_cases {f : Flaw} (h : readSegment sources names before s = .error f) :
    (f.isShort = true ∧ s.values.length ∉ [4, 5]) ∨
    (f = .nameRange (sum 4 (before ++ [s])) s.line ∧ s.values.length = 5 ∧
      ¬(0 ≤ sum 4 (before ++ [s]) ∧ sum 4 (before ++ [s]) < names.length)) ∨
    (f = .sourceRange (sum 1 (before ++ [s])) s.line ∧ s.values.length ∈ [4, 5] ∧
      (s.values.length = 5 → 0 ≤ sum 4 (before ++ [s]) ∧ sum 4 (before ++ [s]) < names.length) ∧
      ¬(0 ≤ sum 1 (before ++ [s]) ∧ sum 1 (before ++ [s]) < sources.length)) := by
  cases hdecode : Vlq.decode s.text with
  | error g =>
    rw [readSegment_of_error sources names hdecode] at h
    obtain rfl := Except.error.inj h
    have hvalues : s.values = [] := by rw [Segment.values, hdecode]
    exact .inl ⟨rfl, by simp [hvalues]⟩
  | ok vs =>
    have hvalues := Segment.values_eq hdecode
    obtain ⟨a, rfl⟩ | ⟨a, b, c, d, rfl⟩ | ⟨a, b, c, d, e, rfl⟩ | hlength := arity_cases vs
    · rw [readSegment_one sources names hdecode] at h
      cases h
    · rw [readSegment_four sources names hdecode] at h
      split at h
      next hnone =>
        obtain rfl := Except.error.inj h
        exact .inr (.inr ⟨rfl, by simp [hvalues], by simp [hvalues], entry?_eq_none.1 hnone⟩)
      next => cases h
    · rw [readSegment_five sources names hdecode] at h
      split at h
      next hnone =>
        obtain rfl := Except.error.inj h
        exact .inr (.inl ⟨rfl, by simp [hvalues], entry?_eq_none.1 hnone⟩)
      next n hn =>
        have hinside : 0 ≤ sum 4 (before ++ [s]) ∧ sum 4 (before ++ [s]) < names.length := by
          by_contra hout
          exact Option.some_ne_none n (hn.symm.trans (entry?_eq_none.2 hout))
        split at h
        next hnone =>
          obtain rfl := Except.error.inj h
          exact .inr (.inr ⟨rfl, by simp [hvalues], fun _ => hinside, entry?_eq_none.1 hnone⟩)
        next => cases h
    · rw [readSegment_other sources names hdecode hlength] at h
      obtain rfl := Except.error.inj h
      exact .inl ⟨rfl, fun hmem => hlength (List.mem_cons_of_mem 1 (hvalues ▸ hmem))⟩

/-- **The flaw of a segment cannot be shown** exactly if its index is overlong. -/
theorem isShort_eq_false_iff {f : Flaw} (h : readSegment sources names before s = .error f) :
    f.isShort = false ↔ Overlong sources names before s := by
  rcases flaw_cases h with ⟨hshort, hlength⟩ | ⟨rfl, hlength, hout⟩ |
    ⟨rfl, hlength, hname, hout⟩
  · refine iff_of_false (by simp [hshort]) ?_
    rintro (⟨hfive, -, -⟩ | ⟨hmem, -, -, -⟩)
    · exact hlength (by simp [hfive])
    · exact hlength hmem
  · rw [Flaw.isShort, isShortInt_eq_false]
    refine ⟨.name hlength hout, ?_⟩
    rintro (⟨-, -, hlong⟩ | ⟨-, hname, -, -⟩)
    · exact hlong
    · exact absurd (hname hlength) hout
  · rw [Flaw.isShort, isShortInt_eq_false]
    refine ⟨.source hlength hname hout, ?_⟩
    rintro (⟨hfive, hnameOut, -⟩ | ⟨-, -, -, hlong⟩)
    · exact absurd (hname hfive) hnameOut
    · exact hlong

/-- **What is not to be refused is read**, and says what it says. -/
theorem exists_says (h : ¬Refused sources names before s) :
    ∃ p r, readSegment sources names before s = .ok (p, r) ∧ Says sources names before s p := by
  have hentry : ∀ {table : List Json} {i : Int},
      (¬(0 ≤ i ∧ i < table.length) → Refused sources names before s) →
        ∃ v, entry? table i = some v := fun {table i} hout => by
    exact Option.ne_none_iff_exists'.1 fun hnone => h (hout (entry?_eq_none.1 hnone))
  cases hdecode : Vlq.decode s.text with
  | error f =>
    refine absurd ?_ h
    obtain ⟨c, hc, hno⟩ | ⟨c, hc, hmore⟩ := Vlq.decode_fails_iff.1 ⟨f, hdecode⟩
    · exact .character c hc hno
    · exact .truncated c hc hmore
  | ok vs =>
    have hvalues := Segment.values_eq hdecode
    obtain ⟨a, rfl⟩ | ⟨a, b, c, d, rfl⟩ | ⟨a, b, c, d, e, rfl⟩ | hlength := arity_cases vs
    · refine ⟨_, _, readSegment_one sources names hdecode, rfl, rfl,
        fun _ => ⟨rfl, rfl, rfl, rfl⟩, ?_, ?_, ?_⟩
      all_goals
        rw [hvalues]
        simp
    · obtain ⟨v, hv⟩ := hentry (.source (by simp [hvalues]))
      rw [readSegment_four sources names hdecode, hv]
      refine ⟨_, _, rfl, rfl, rfl, ?_, fun _ => ⟨entry?_eq_some.1 hv, rfl, rfl⟩, fun _ => rfl, ?_⟩
      all_goals
        rw [hvalues]
        simp
    · obtain ⟨v, hv⟩ := hentry (.source (by simp [hvalues]))
      obtain ⟨n, hn⟩ := hentry (.name (by simp [hvalues]))
      rw [readSegment_five sources names hdecode, hv, hn]
      refine ⟨_, _, rfl, rfl, rfl, ?_, fun _ => ⟨entry?_eq_some.1 hv, rfl, rfl⟩, ?_,
        fun _ => entry?_eq_some.1 hn⟩
      all_goals
        rw [hvalues]
        simp
    · exact absurd (.arity vs hdecode hlength) h

end Sigil.SourceMap
