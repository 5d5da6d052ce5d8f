import Sigil.Proofs.SourceMap.Complete
import Sigil.Proofs.SourceMap.RoundTrip
import Sigil.Proofs.Sorting

/-!
# Proofs/SourceMap/Normal — writing leads to a normal form

    toJson m  =  raw      ofJson raw  =  normal m      toJson (normal m)  =  raw

Many strings hold the same mappings, out of order, with empty segments or with digits that add
nothing.  All of that is gone once a map was written: its mappings are in order and each is cut down
to what a segment keeps, so a second writing finds nothing to change.
-/

namespace Sigil

namespace Mapping

theorem isMapped_reduced (m : Mapping) : m.reduced.isMapped = m.isMapped := by
  cases h : m.isMapped with
  | true => rw [reduced, if_pos h, h]
  | false => rw [reduced, h]; rfl

theorem generatedLine_reduced (m : Mapping) : m.reduced.generatedLine = m.generatedLine := by
  rw [reduced]
  split <;> rfl

theorem reduced_of_isMapped {m : Mapping} (h : m.isMapped) : m.reduced = m := if_pos h

theorem before_reduced (a b : Mapping) : before a.reduced b.reduced = before a b := by
  simp only [before, generatedLine_reduced, generatedColumn_reduced]

end Mapping

namespace SourceMap

/-! ## Reduced mappings are written as they are -/

section Mappings

variable (sources names : List Json)

theorem segmentValues_reduced (w : Written) (m : Mapping) :
    segmentValues sources names w m.reduced = segmentValues sources names w m := by
  cases h : m.isMapped with
  | true => rw [Mapping.reduced_of_isMapped h]
  | false =>
    rw [segmentValues_of_not_isMapped _ _ w h,
      segmentValues_of_not_isMapped _ _ w (m.isMapped_reduced.trans h),
      Mapping.generatedColumn_reduced]

theorem encodeFrom_map_reduced (w : Written) (fresh : Bool) (ms : List Mapping) :
    encodeFrom sources names w fresh (ms.map Mapping.reduced)
      = encodeFrom sources names w fresh ms := by
  induction ms generalizing w fresh with
  | nil => rfl
  | cons m ms ih =>
    rw [List.map_cons, encodeFrom, encodeFrom]
    simp only [Mapping.generatedLine_reduced, segmentValues_reduced, ih]

/-- The mappings of the normal form: in order, and reduced. -/
def normalMappings (ms : List Mapping) : List Mapping :=
  (ms.mergeSort Mapping.before).map Mapping.reduced

theorem pairwise_normalMappings (ms : List Mapping) :
    (normalMappings ms).Pairwise fun a b => Mapping.before a b := by
  rw [normalMappings, List.pairwise_map]
  refine (List.pairwise_mergeSort before_trans before_total ms).imp fun {a b} hab => ?_
  rw [Mapping.before_reduced]
  exact hab

/-- **The normal form is written like the mappings it comes from.** -/
theorem encodeMappings_normalMappings (ms : List Mapping) :
    encodeMappings sources names (normalMappings ms) = encodeMappings sources names ms := by
  rw [encodeMappings, List.mergeSort_of_pairwise (pairwise_normalMappings ms), normalMappings,
    encodeFrom_map_reduced, ← encodeMappings]

end Mappings

/-! ## Complete maps -/

/-- Nothing is put to a table that lists every reference. -/
theorem extend_eq_self {table refs : List Json} (htable : ∀ v ∈ table, v.isTextual)
    (hrefs : ∀ v ∈ refs, v.isNull ∨ v ∈ table) : extend table refs = table := by
  induction refs with
  | nil => rfl
  | cons v refs ih =>
    obtain ⟨hv, hrefs⟩ := List.forall_mem_cons.1 hrefs
    have hknown : (v.isNull || table.any (·.same v)) = true := by
      by_cases hnull : v.isNull
      · rw [hnull, Bool.true_or]
      · have hmem := hv.resolve_left hnull
        obtain ⟨s, rfl⟩ := Json.exists_str (htable v hmem) hnull
        have hs : s ∈ table.filterMap Json.text? := List.mem_filterMap.2 ⟨_, hmem, rfl⟩
        rw [any_same_str htable, decide_eq_true hs, Bool.or_true]
    rw [extend, if_pos hknown, ih hrefs]

theorem Drawn.isTextual {sources names : List Json} {p : Mapping} (h : Drawn sources names p)
    (hsources : ∀ v ∈ sources, v.isTextual) (hnames : ∀ v ∈ names, v.isTextual) :
    p.source.isTextual ∧ p.name.isTextual := by
  have hnull : ∀ {v : Json}, v.isNull → v.isTextual := fun {v} hv => by
    rw [Json.isNull_iff.1 hv]
    rfl
  exact ⟨h.source.elim hnull (hsources _), h.name.elim hnull (hnames _)⟩

theorem Drawn.reduced {sources names : List Json} {p : Mapping} (h : Drawn sources names p) :
    Drawn sources names p.reduced := by
  rw [Mapping.reduced]
  split
  · exact h
  · exact ⟨.inl rfl, .inl rfl⟩

namespace Complete

variable {m : SourceMap} (h : m.Complete)
include h

/-- Where the tables hold strings, so do the mappings. -/
theorem textual (hsources : ∀ v ∈ m.sources, v.isTextual) (hnames : ∀ v ∈ m.names, v.isTextual) :
    m.Textual where
  sources := hsources
  names := hnames
  source p hp := ((h.drawn p hp).isTextual hsources hnames).1
  name p hp := ((h.drawn p hp).isTextual hsources hnames).2

theorem allSources_eq (htextual : m.Textual) : allSources m = m.sources :=
  extend_eq_self htextual.sources (List.forall_mem_map.2 fun p hp => (h.drawn p hp).source)

theorem allNames_eq (htextual : m.Textual) : allNames m = m.names :=
  extend_eq_self htextual.names (List.forall_mem_map.2 fun p hp => (h.drawn p hp).name)

/-- **A complete map is written** with its own tables and contents. -/
theorem toJson_eq (htextual : m.Textual) : m.toJson = .ok (.obj (present
    (fields m m.sources m.names m.sourcesContent
      (encodeMappings m.sources m.names m.mappings)))) := by
  have hsources := h.allSources_eq htextual
  have hnames := h.allNames_eq htextual
  have hcontent : allContent m = m.sourcesContent := by
    rw [allContent, hsources, h.content, Nat.sub_self, List.replicate_zero, List.append_nil]
  have hwritten := SourceMap.toJson_eq (isNull_of_same_int h.version) htextual.isCollection_eq_false
    (Nat.le_of_eq h.content) (Nat.le_of_eq (congrArg List.length hsources.symm))
  rw [hsources, hnames, hcontent] at hwritten
  exact hwritten

end Complete

/-! ## The normal form -/

/-- **The normal form of a map**: its mappings in order, each cut down to what a segment keeps. -/
def normal (m : SourceMap) : SourceMap := { m with mappings := normalMappings m.mappings }

theorem Complete.normal {m : SourceMap} (h : m.Complete) : m.normal.Complete := by
  have hmem : ∀ p ∈ m.normal.mappings, ∃ q ∈ m.mappings, q.reduced = p := fun p hp => by
    obtain ⟨q, hq, rfl⟩ := List.mem_map.1 hp
    exact ⟨q, List.mem_mergeSort.1 hq, rfl⟩
  refine { h with line := fun p hp => ?_, drawn := fun p hp => ?_ }
  · obtain ⟨q, hq, rfl⟩ := hmem p hp
    rw [Mapping.generatedLine_reduced]
    exact h.line q hq
  · obtain ⟨q, hq, rfl⟩ := hmem p hp
    exact (h.drawn q hq).reduced

/-- **A complete map reads as its normal form** once it was written. -/
theorem Complete.exists_toJson {m : SourceMap} (h : m.Complete) (htextual : m.Textual) :
    ∃ raw, m.toJson = .ok raw ∧ ofJson raw = .ok m.normal := by
  have hlisted : ∀ p ∈ m.mappings, Listed m.sources p.source ∧ Listed m.names p.name :=
    fun p hp => by
      rw [← h.allSources_eq htextual, ← h.allNames_eq htextual]
      exact htextual.listed p hp
  exact ⟨_, h.toJson_eq htextual, ofJson_fields h.version h.content
    (decodeMappings_encodeMappings hlisted h.line)⟩

/-- **The normal form is written like the map it comes from.** -/
theorem Complete.toJson_normal {m : SourceMap} (h : m.Complete) (htextual : m.Textual) :
    m.normal.toJson = m.toJson := by
  rw [h.toJson_eq htextual,
    h.normal.toJson_eq (h.normal.textual htextual.sources htextual.names)]
  exact congrArg (fun text => Except.ok (Json.obj (present (fields m m.sources m.names
    m.sourcesContent text)))) (encodeMappings_normalMappings _ _ _)

/-- A field of a document lists strings, or `null` where there is none.  What is missing lists
nothing. -/
def ListsText (entries : List (String × Json)) (key : String) : Prop :=
  ∃ items, tableOf (field entries key) = .ok items ∧ ∀ v ∈ items, v.isTextual

theorem ListsText.isTextual {entries : List (String × Json)} {key : String} {items : List Json}
    (h : ListsText entries key) (hitems : tableOf (field entries key) = .ok items) :
    ∀ v ∈ items, v.isTextual := by
  obtain ⟨_, htable, htext⟩ := h
  obtain rfl := Except.ok.inj (htable.symm.trans hitems)
  exact htext

/-- A map read from tables of strings has strings only. -/
theorem textual_of_ofJson {entries : List (String × Json)} {m : SourceMap}
    (hsources : ListsText entries "sources") (hnames : ListsText entries "names")
    (h : ofJson (.obj entries) = .ok m) : m.Textual := by
  obtain ⟨_, -, -, hraw, -, hs, hn, -⟩ := exists_of_ofJson h
  obtain rfl := Json.obj.inj hraw
  exact (complete_of_ofJson h).textual (hsources.isTextual hs) (hnames.isTextual hn)

/-- **Writing undoes reading on what was written.**  A map that was read, from whatever spelling of
its mappings, is written as a document that reads as the normal form of the map, and writing this
gives the same document again. -/
theorem toJson_ofJson_toJson {entries : List (String × Json)} {m : SourceMap}
    (hsources : ListsText entries "sources") (hnames : ListsText entries "names")
    (h : ofJson (.obj entries) = .ok m) :
    ∃ raw, m.toJson = .ok raw ∧ ofJson raw = .ok m.normal ∧ m.normal.toJson = .ok raw := by
  have hcomplete := complete_of_ofJson h
  have htextual := textual_of_ofJson hsources hnames h
  obtain ⟨raw, hraw, hread⟩ := hcomplete.exists_toJson htextual
  exact ⟨raw, hraw, hread, (hcomplete.toJson_normal htextual).trans hraw⟩

/-- A document whose mappings come out of order and with digits and separators that add nothing, and
whose sources repeat one and lack one. -/
def spelled : List (String × Json) := [
  ("version", .int 3), ("sources", .arr [.str "a.ts", .null, .str "a.ts"]),
  ("names", .arr [.str "f"]), ("mappings", .str "IAAAA,,HBgAA;;CCAA,E;;")]

/-- What it is read as. -/
def spelledMap : SourceMap where
  mappings := [⟨1, 4, .str "a.ts", some 1, some 0, .str "f"⟩,
    ⟨1, 1, .str "a.ts", some 1, some 0, .null⟩, ⟨3, 1, .null, some 1, some 0, .null⟩,
    { generatedLine := 3, generatedColumn := 3 }]
  sources := [.str "a.ts", .null, .str "a.ts"]
  sourcesContent := [.null, .null, .null]
  names := [.str "f"]

theorem ofJson_spelled : ofJson (.obj spelled) = .ok spelledMap := rfl

theorem toJson_ofJson_toJson_spelled :
    ∃ raw, spelledMap.toJson = .ok raw ∧ ofJson raw = .ok spelledMap.normal ∧
      spelledMap.normal.toJson = .ok raw ∧ raw = .obj [("version", .int 3),
        ("sources", .arr [.str "a.ts", .null, .str "a.ts"]), ("names", .arr [.str "f"]),
        ("mappings", .str "CEAA,GAAAA;;C,E")] := by
  have hsources : ListsText spelled "sources" :=
    ⟨[.str "a.ts", .null, .str "a.ts"], rfl, by decide⟩
  have hnames : ListsText spelled "names" := ⟨[.str "f"], rfl, by decide⟩
  obtain ⟨raw, hraw, hread, hagain⟩ := toJson_ofJson_toJson hsources hnames ofJson_spelled
  have hsorted : spelledMap.mappings.mergeSort Mapping.before
      = [⟨1, 1, .str "a.ts", some 1, some 0, .null⟩, ⟨1, 4, .str "a.ts", some 1, some 0, .str "f"⟩,
        ⟨3, 1, .null, some 1, some 0, .null⟩, { generatedLine := 3, generatedColumn := 3 }] :=
    mergeSort_of_perm before_trans before_total (.swap _ _ _) (by decide)
  refine ⟨raw, hraw, hread, hagain, Except.ok.inj (hraw.symm.trans ?_)⟩
  simp only [toJson, encodeMappings, hsorted]
  with_unfolding_all rfl

end SourceMap

end Sigil
