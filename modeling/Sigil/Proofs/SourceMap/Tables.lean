import Sigil.SourceMap.Decode
import Sigil.SourceMap.Encode

/-!
# Proofs/SourceMap/Tables — sources and names under their indices

A map's sources and names are strings, or `null` where there is none.  Of such values the writer
makes a table that holds each one it refers to (`extend_eq`, `mem_extend`), and the reader finds it
there under the index that was written (`entry?_indexIn`), however often the table repeats it.
-/

namespace Sigil

namespace Json

/-- A string, or `null`. -/
def isTextual : Json → Bool
  | .null | .str _ => true
  | _ => false

/-- The string that a value is. -/
def text? : Json → Option String
  | .str s => some s
  | _ => none

theorem text?_eq_some {v : Json} {s : String} : v.text? = some s ↔ v = .str s := by
  cases v <;> simp [text?]

theorem isNull_iff {v : Json} : v.isNull ↔ v = .null := by
  cases v <;> simp [isNull]

/-- A string or `null` is the same as a string only if it is that string. -/
theorem same_str {v : Json} (hv : v.isTextual) (s : String) : v.same (.str s) ↔ v = .str s := by
  cases v with
  | null => simp [same, number?]
  | str t => simp [same]
  | bool | int | double | arr | obj => exact absurd hv Bool.false_ne_true

theorem exists_str {v : Json} (hv : v.isTextual) (hnull : ¬ v.isNull) : ∃ s, v = .str s := by
  cases v with
  | null => exact absurd rfl hnull
  | str s => exact ⟨s, rfl⟩
  | bool | int | double | arr | obj => exact absurd hv Bool.false_ne_true

theorem isCollection_of_isTextual {v : Json} (hv : v.isTextual) : v.isCollection = false := by
  cases v with
  | null | str => rfl
  | bool | int | double | arr | obj => exact absurd hv Bool.false_ne_true

end Json

namespace SourceMap

/-- The strings in `refs` that a table lacks, each once, in the order in which they first occur. -/
def unlisted (table refs : List Json) : List String :=
  ((refs.filterMap Json.text?).filter fun s => s ∉ table.filterMap Json.text?).eraseDups

theorem any_same_str {table : List Json} (htable : ∀ v ∈ table, v.isTextual) (s : String) :
    table.any (·.same (.str s)) = decide (s ∈ table.filterMap Json.text?) := by
  rw [Bool.eq_iff_iff, List.any_eq_true, decide_eq_true_iff, List.mem_filterMap]
  refine exists_congr fun v => and_congr_right fun hv => ?_
  rw [Json.same_str (htable v hv), Json.text?_eq_some]

theorem unlisted_null_cons (table refs : List Json) :
    unlisted table (.null :: refs) = unlisted table refs :=
  rfl

theorem unlisted_str_cons (table : List Json) (s : String) (refs : List Json) :
    unlisted table (.str s :: refs) = ((s :: refs.filterMap Json.text?).filter
      fun s => s ∉ table.filterMap Json.text?).eraseDups :=
  rfl

theorem unlisted_cons_of_mem {table : List Json} {s : String}
    (hs : s ∈ table.filterMap Json.text?) (refs : List Json) :
    unlisted table (.str s :: refs) = unlisted table refs := by
  rw [unlisted_str_cons, List.filter_cons, if_neg (by simpa using hs), unlisted]

theorem unlisted_cons_of_notMem {table : List Json} {s : String}
    (hs : s ∉ table.filterMap Json.text?) (refs : List Json) :
    unlisted table (.str s :: refs) = s :: unlisted (table ++ [.str s]) refs := by
  have hlonger : (table ++ [Json.str s]).filterMap Json.text?
      = table.filterMap Json.text? ++ [s] := by
    rw [List.filterMap_append]
    rfl
  rw [unlisted_str_cons, unlisted, List.filter_cons, if_pos (by simpa using hs),
    List.eraseDups_cons, List.filter_filter, hlonger]
  refine congrArg (fun p => s :: ((refs.filterMap Json.text?).filter p).eraseDups) ?_
  funext t
  by_cases ht : t = s <;> simp [ht]

/-- **Extending a table** puts the unlisted strings at its end. -/
theorem extend_eq {table refs : List Json} (htable : ∀ v ∈ table, v.isTextual)
    (hrefs : ∀ v ∈ refs, v.isTextual) :
    extend table refs = table ++ (unlisted table refs).map .str := by
  induction refs generalizing table with
  | nil => exact (List.append_nil table).symm
  | cons v refs ih =>
    obtain ⟨hv, hrest⟩ := List.forall_mem_cons.1 hrefs
    rw [extend]
    cases v with
    | null => rw [unlisted_null_cons, Json.isNull, Bool.true_or, if_pos rfl, ih htable hrest]
    | str s =>
      have hnull : (Json.str s).isNull = false := rfl
      rw [hnull, Bool.false_or, any_same_str htable]
      by_cases hs : s ∈ table.filterMap Json.text?
      · rw [unlisted_cons_of_mem hs, if_pos (decide_eq_true hs), ih htable hrest]
      · have hlonger : ∀ v ∈ table ++ [.str s], v.isTextual :=
          List.forall_mem_append.2 ⟨htable, List.forall_mem_singleton.2 rfl⟩
        rw [if_neg (by simpa using hs), ih hlonger hrest, unlisted_cons_of_notMem hs,
          List.map_cons, List.append_assoc]
        rfl
    | bool | int | double | arr | obj => exact absurd hv Bool.false_ne_true

theorem isTextual_of_mem_extend {table refs : List Json} (htable : ∀ v ∈ table, v.isTextual)
    (hrefs : ∀ v ∈ refs, v.isTextual) : ∀ v ∈ extend table refs, v.isTextual := by
  intro v hv
  rw [extend_eq htable hrefs, List.mem_append, List.mem_map] at hv
  rcases hv with hv | ⟨s, -, rfl⟩
  · exact htable v hv
  · rfl

/-- An extended table holds every string that is referred to. -/
theorem mem_extend {table refs : List Json} (htable : ∀ v ∈ table, v.isTextual)
    (hrefs : ∀ v ∈ refs, v.isTextual) {v : Json} (hv : v ∈ refs) (hnull : ¬ v.isNull) :
    v ∈ extend table refs := by
  obtain ⟨s, rfl⟩ := Json.exists_str (hrefs v hv) hnull
  rw [extend_eq htable hrefs, List.mem_append]
  by_cases hs : s ∈ table.filterMap Json.text?
  · obtain ⟨w, hw, htext⟩ := List.mem_filterMap.1 hs
    obtain rfl := Json.text?_eq_some.1 htext
    exact .inl hw
  · have htext : s ∈ refs.filterMap Json.text? := List.mem_filterMap.2 ⟨_, hv, rfl⟩
    refine .inr (List.mem_map_of_mem (List.mem_eraseDups.2 ?_))
    exact List.mem_filter.2 ⟨htext, decide_eq_true hs⟩

/-- **A string is found under its index.** -/
theorem entry?_indexIn {table : List Json} (htable : ∀ v ∈ table, v.isTextual) {v : Json}
    (hv : v ∈ table) (hnull : ¬ v.isNull) : entry? table (indexIn table v) = some v := by
  obtain ⟨s, rfl⟩ := Json.exists_str (htable v hv) hnull
  obtain ⟨i, hi⟩ : ∃ i, table.reverse.findIdx? (·.same (.str s)) = some i := by
    rw [← Option.isSome_iff_exists, List.findIdx?_isSome, List.any_eq_true]
    exact ⟨_, List.mem_reverse.2 hv, (Json.same_str (htable _ hv) s).2 rfl⟩
  obtain ⟨hlt, hsame, -⟩ := List.findIdx?_eq_some_iff_getElem.1 hi
  have hmem : table.reverse[i] ∈ table := List.mem_reverse.1 (List.getElem_mem hlt)
  have hget := (Json.same_str (htable _ hmem) s).1 hsame
  rw [List.length_reverse] at hlt
  rw [List.getElem_reverse] at hget
  rw [indexIn, lastIndex?, hi, Option.getD_some, entry?, if_neg (by omega), Int.toNat_natCast,
    List.getElem?_eq_getElem (by omega), hget]

/-- A table gives a value back under its index; `null` has none. -/
def Listed (table : List Json) (v : Json) : Prop :=
  v.isNull ∨ entry? table (indexIn table v) = some v

theorem listed_of_mem {table refs : List Json} (htable : ∀ v ∈ table, v.isTextual)
    (hrefs : ∀ v ∈ refs, v.isTextual) {v : Json} (hv : v ∈ refs) :
    Listed (extend table refs) v := by
  by_cases hnull : v.isNull
  · exact .inl hnull
  · exact .inr (entry?_indexIn (isTextual_of_mem_extend htable hrefs)
      (mem_extend htable hrefs hv hnull) hnull)

end SourceMap

end Sigil
