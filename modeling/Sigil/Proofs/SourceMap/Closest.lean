import Sigil.Proofs.SourceMap.Lookup
import Sigil.Proofs.SourceMap.Normal

/-!
# Proofs/SourceMap/Closest — a lookup finds the last of the greatest

    closest? m line column = p   ⟺   p reaches the column, none that does is greater, and of those
                                     at the same column p stands last

A stable sort keeps the order of what it finds equal (`filter_mergeSort`).  So the order of the
mappings matters only among those at one place, and for these the order in which they are written
and read again is the one in which they stood.
-/

namespace Sigil

namespace Mapping

/-- A mapping of the line, at the column or before it. -/
def Reaches (p : Mapping) (line column : Int) : Prop :=
  p.generatedLine = line ∧ p.generatedColumn ≤ column

instance (p : Mapping) (line column : Int) : Decidable (p.Reaches line column) :=
  inferInstanceAs (Decidable (_ ∧ _))

/-- A mapping of the line, at the column. -/
def standsAt (line column : Int) (p : Mapping) : Bool :=
  p.generatedLine = line && p.generatedColumn = column

theorem standsAt_iff {p : Mapping} {line column : Int} :
    p.standsAt line column ↔ p.generatedLine = line ∧ p.generatedColumn = column := by
  rw [standsAt, Bool.and_eq_true, decide_eq_true_eq, decide_eq_true_eq]

theorem reaches_reduced {p : Mapping} {line column : Int} :
    p.reduced.Reaches line column ↔ p.Reaches line column := by
  rw [Reaches, Reaches, generatedLine_reduced, generatedColumn_reduced]

theorem standsAt_reduced (line column : Int) :
    standsAt line column ∘ reduced = standsAt line column := by
  funext p
  rw [Function.comp_apply, standsAt, standsAt, generatedLine_reduced, generatedColumn_reduced]

end Mapping

namespace SourceMap

variable {m : SourceMap} {line column : Int} {p q : Mapping}

/-! ## What a lookup finds -/

/-- **The mapping that a lookup is to find**: none that reaches the column is greater, and of those
at its own place it is the last. -/
structure Closest (m : SourceMap) (line column : Int) (p : Mapping) : Prop where
  reaches : p.Reaches line column
  greatest : ∀ q ∈ m.mappings, q.Reaches line column → q.generatedColumn ≤ p.generatedColumn
  last : (m.mappings.filter (·.standsAt line p.generatedColumn)).getLast? = some p

theorem Closest.mem (h : Closest m line column p) : p ∈ m.mappings :=
  (List.mem_filter.1 (List.mem_of_getLast? h.last)).1

theorem Closest.unique (hp : Closest m line column p) (hq : Closest m line column q) : p = q := by
  have hcolumn : p.generatedColumn = q.generatedColumn :=
    Int.le_antisymm (hq.greatest p hp.mem hp.reaches) (hp.greatest q hq.mem hq.reaches)
  have hlast := hp.last
  rw [hcolumn, hq.last] at hlast
  exact (Option.some.inj hlast).symm

/-- The order of columns. -/
def columnLe (a b : Mapping) : Bool := a.generatedColumn ≤ b.generatedColumn

theorem columnLe_trans (a b c : Mapping) (hab : columnLe a b) (hbc : columnLe b c) :
    columnLe a c :=
  decide_eq_true (Int.le_trans (of_decide_eq_true hab) (of_decide_eq_true hbc))

theorem columnLe_total (a b : Mapping) : columnLe a b || columnLe b a := by
  rw [columnLe, columnLe, ← Bool.decide_or]
  exact decide_eq_true (Int.le_total _ _)

/-- The mappings of a line in the order of their columns. -/
def byColumn (m : SourceMap) (line : Int) : List Mapping :=
  (m.mappings.filter (·.generatedLine = line)).mergeSort columnLe

theorem mem_byColumn : p ∈ m.byColumn line ↔ p ∈ m.mappings ∧ p.generatedLine = line := by
  rw [byColumn, List.mem_mergeSort, List.mem_filter, decide_eq_true_eq]

theorem pairwise_byColumn (m : SourceMap) (line : Int) :
    (m.byColumn line).Pairwise fun a b => a.generatedColumn ≤ b.generatedColumn :=
  (List.pairwise_mergeSort columnLe_trans columnLe_total _).imp of_decide_eq_true

/-- Sorting a line does not stir up the mappings of one column. -/
theorem filter_byColumn (m : SourceMap) (line c : Int) :
    (m.byColumn line).filter (·.generatedColumn = c) = m.mappings.filter (·.standsAt line c) := by
  have hties : ∀ a b : Mapping, decide (a.generatedColumn = c) = true →
      decide (b.generatedColumn = c) = true → columnLe a b := fun a b ha hb =>
    decide_eq_true (Int.le_of_eq ((of_decide_eq_true ha).trans (of_decide_eq_true hb).symm))
  rw [byColumn, filter_mergeSort columnLe_trans columnLe_total hties, List.filter_filter]
  exact List.filter_congr fun p _ => Bool.and_comm _ _

theorem closest?_eq_getLast? (m : SourceMap) (line column : Int) : m.closest? line column
    = ((m.byColumn line).filter (·.generatedColumn ≤ column)).getLast? := by
  rw [← takeWhile_eq_filter]
  · rfl
  · refine (pairwise_byColumn m line).imp fun {a b} hab hb => ?_
    exact decide_eq_true (Int.le_trans hab (of_decide_eq_true hb))

/-- The last mapping of a line in the order of columns is the greatest. -/
theorem le_of_getLast? {ps : List Mapping} (h : ps.Pairwise fun a b =>
    a.generatedColumn ≤ b.generatedColumn) (hlast : ps.getLast? = some p) :
    ∀ q ∈ ps, q.generatedColumn ≤ p.generatedColumn := by
  obtain ⟨front, rfl⟩ := List.getLast?_eq_some_iff.1 hlast
  refine List.forall_mem_append.2 ⟨fun q hq => ?_, List.forall_mem_singleton.2 (Int.le_refl _)⟩
  exact (List.pairwise_append.1 h).2.2 q hq p List.mem_cons_self

/-- **A lookup finds the closest mapping**, or none reaches the column. -/
theorem closest?_spec (m : SourceMap) (line column : Int) :
    (m.closest? line column = none ∧ ∀ p ∈ m.mappings, ¬p.Reaches line column) ∨
      ∃ p, m.closest? line column = some p ∧ Closest m line column p := by
  have hmem : ∀ q, q ∈ (m.byColumn line).filter (·.generatedColumn ≤ column) ↔
      q ∈ m.mappings ∧ q.Reaches line column := fun q => by
    rw [List.mem_filter, mem_byColumn, decide_eq_true_eq, Mapping.Reaches, and_assoc]
  have hsorted := (pairwise_byColumn m line).filter fun q => q.generatedColumn ≤ column
  rw [closest?_eq_getLast?]
  cases hlast : ((m.byColumn line).filter (·.generatedColumn ≤ column)).getLast? with
  | none =>
    refine .inl ⟨rfl, fun p hp hreaches => ?_⟩
    exact List.ne_nil_of_mem ((hmem p).2 ⟨hp, hreaches⟩) (List.getLast?_eq_none_iff.1 hlast)
  | some p =>
    have hreaches := ((hmem p).1 (List.mem_of_getLast? hlast)).2
    refine .inr ⟨p, rfl, hreaches, fun q hq hqreaches => ?_, ?_⟩
    · exact le_of_getLast? hsorted hlast q ((hmem q).2 ⟨hq, hqreaches⟩)
    · -- of the columns up to `column`, only that of `p` is looked at
      have hall : ((m.byColumn line).filter (·.generatedColumn ≤ column)).filter
          (·.generatedColumn = p.generatedColumn)
          = (m.byColumn line).filter (·.generatedColumn = p.generatedColumn) := by
        rw [List.filter_filter]
        refine List.filter_congr fun q _ => ?_
        by_cases hq : q.generatedColumn = p.generatedColumn <;> simp [hq, hreaches.2]
      rw [← filter_byColumn, ← hall, getLast?_filter_of_last, hlast]
      intro x hx
      obtain rfl := Option.some.inj (hlast.symm.trans hx)
      exact decide_eq_true rfl

theorem Closest.closest?_eq (h : Closest m line column p) : m.closest? line column = some p := by
  rcases closest?_spec m line column with ⟨-, hnone⟩ | ⟨q, hq, hclosest⟩
  · exact absurd h.reaches (hnone p h.mem)
  · rw [hq, hclosest.unique h]

/-! ## Reading what was written -/

theorem filter_normalMappings (ms : List Mapping) (line c : Int) :
    (normalMappings ms).filter (·.standsAt line c)
      = (ms.filter (·.standsAt line c)).map Mapping.reduced := by
  have hties : ∀ a b : Mapping, a.standsAt line c → b.standsAt line c → a.before b := by
    intro a b ha hb
    obtain ⟨ha, ha'⟩ := Mapping.standsAt_iff.1 ha
    obtain ⟨hb, hb'⟩ := Mapping.standsAt_iff.1 hb
    simp [Mapping.before, ha, ha', hb, hb']
  have hcomp : (fun p : Mapping => p.standsAt line c) ∘ Mapping.reduced
      = fun p => p.standsAt line c := Mapping.standsAt_reduced line c
  rw [normalMappings, List.filter_map, hcomp, filter_mergeSort before_trans before_total hties]

theorem mem_normalMappings {ms : List Mapping} :
    p ∈ normalMappings ms ↔ ∃ q ∈ ms, q.reduced = p := by
  simp only [normalMappings, List.mem_map, List.mem_mergeSort]

theorem origin_reduced (p : Mapping) : origin p.reduced = origin p := by
  cases h : p.isMapped with
  | true => rw [Mapping.reduced_of_isMapped h]
  | false => rw [origin, origin, Mapping.isMapped_reduced, h]; rfl

/-- **Where mappings were put in order and reduced**, a lookup finds the same one, reduced. -/
theorem closest?_of_normalMappings {m' : SourceMap} (h : m'.mappings = normalMappings m.mappings)
    (line column : Int) :
    m'.closest? line column = (m.closest? line column).map Mapping.reduced := by
  rcases closest?_spec m line column with ⟨hnone, hclear⟩ | ⟨p, hp, hclosest⟩
  · rcases closest?_spec m' line column with ⟨hnone', -⟩ | ⟨p, -, hclosest⟩
    · rw [hnone, hnone', Option.map_none]
    · have hmem := hclosest.mem
      rw [h] at hmem
      obtain ⟨q, hq, rfl⟩ := mem_normalMappings.1 hmem
      exact absurd (Mapping.reaches_reduced.1 hclosest.reaches) (hclear q hq)
  · rw [hp, Option.map_some]
    refine Closest.closest?_eq
      ⟨Mapping.reaches_reduced.2 hclosest.reaches, fun b hb hreaches => ?_, ?_⟩
    · rw [h] at hb
      obtain ⟨q, hq, rfl⟩ := mem_normalMappings.1 hb
      rw [Mapping.generatedColumn_reduced, Mapping.generatedColumn_reduced]
      exact hclosest.greatest q hq (Mapping.reaches_reduced.1 hreaches)
    · rw [h, filter_normalMappings, List.getLast?_map, Mapping.generatedColumn_reduced,
        hclosest.last, Option.map_some]

/-- A map is written, and what was written is read as a map with the same mappings, put in order and
reduced; its contents need not match its sources. -/
theorem Textual.exists_reload (h : m.Textual) (hversion : m.version.same (.int 3))
    (hlines : ∀ p ∈ m.mappings, 1 ≤ p.generatedLine) :
    ∃ raw m', m.toJson = .ok raw ∧ ofJson raw = .ok m' ∧
      m'.mappings = normalMappings m.mappings :=
  ⟨_, _, toJson_eq_fields (isNull_of_same_int hversion) h.isCollection_eq_false,
    ofJson_fields_fit hversion (decodeMappings_encodeMappings h.listed hlines), rfl⟩

/-- **A lookup finds the last of the greatest, before and after a reload.**  Whatever the order of
the mappings, a lookup gives the original position of the closest one, which is empty if that one is
not mapped, and the empty position if none reaches the column.  A map that is written and read again
answers every lookup as it did. -/
theorem originalPosition_closest :
    (∀ (m : SourceMap) (line column : Int),
      (∃ p, Closest m line column p ∧ m.originalPosition line column = origin p) ∨
        ((∀ p ∈ m.mappings, ¬p.Reaches line column) ∧ m.originalPosition line column = {})) ∧
    ∀ m : SourceMap, m.Textual → m.version.same (.int 3) →
      (∀ p ∈ m.mappings, 1 ≤ p.generatedLine) →
      ∃ raw m', m.toJson = .ok raw ∧ ofJson raw = .ok m' ∧
        ∀ line column, m'.originalPosition line column = m.originalPosition line column := by
  constructor
  · intro m line column
    rw [originalPosition_eq]
    rcases closest?_spec m line column with ⟨hnone, hclear⟩ | ⟨p, hp, hclosest⟩
    · exact .inr ⟨hclear, by rw [hnone, Option.map_none, Option.getD_none]⟩
    · exact .inl ⟨p, hclosest, by rw [hp, Option.map_some, Option.getD_some]⟩
  · intro m htextual hversion hlines
    obtain ⟨raw, m', hraw, hread, hmappings⟩ := htextual.exists_reload hversion hlines
    refine ⟨raw, m', hraw, hread, fun line column => ?_⟩
    have horigin : origin ∘ Mapping.reduced = origin := funext origin_reduced
    rw [originalPosition_eq, originalPosition_eq, closest?_of_normalMappings hmappings,
      Option.map_map, horigin]

/-- Mappings out of order, two of them at one place and one without a column, that refer to sources
and a name which are not listed; and a content too many. -/
def tangled : SourceMap where
  mappings := [⟨1, 5, .str "a.ts", some 1, some 5, .str "f"⟩,
    ⟨2, 0, .str "a.ts", some 4, some 0, .null⟩,
    ⟨1, 2, .str "b.ts", some 9, none, .null⟩, ⟨1, 5, .str "b.ts", some 2, some 0, .null⟩,
    ⟨1, 0, .str "a.ts", some 1, some 0, .null⟩]
  sources := [.str "c.ts"]
  sourcesContent := [.str "c", .str "d"]

theorem originalPosition_closest_tangled :
    ∃ raw m', tangled.toJson = .ok raw ∧ ofJson raw = .ok m' ∧
      m'.originalPosition 1 7 = ⟨.str "b.ts", some 2, some 0, .null⟩ ∧
      m'.originalPosition 1 4 = {} ∧
      m'.originalPosition 1 1 = ⟨.str "a.ts", some 1, some 0, .null⟩ := by
  have htextual : tangled.Textual := by
    constructor <;> simp [tangled, Json.isTextual]
  obtain ⟨raw, m', hraw, hread, hlookup⟩ :=
    originalPosition_closest.2 tangled htextual rfl (by decide)
  have hseven : Closest tangled 1 7 ⟨1, 5, .str "b.ts", some 2, some 0, .null⟩ :=
    ⟨by decide, by decide, rfl⟩
  have hfour : Closest tangled 1 4 ⟨1, 2, .str "b.ts", some 9, none, .null⟩ :=
    ⟨by decide, by decide, rfl⟩
  have hone : Closest tangled 1 1 ⟨1, 0, .str "a.ts", some 1, some 0, .null⟩ :=
    ⟨by decide, by decide, rfl⟩
  refine ⟨raw, m', hraw, hread, ?_, ?_, ?_⟩
  · rw [hlookup, originalPosition_eq, hseven.closest?_eq]
    rfl
  · rw [hlookup, originalPosition_eq, hfour.closest?_eq]
    rfl
  · rw [hlookup, originalPosition_eq, hone.closest?_eq]
    rfl

end SourceMap

end Sigil
