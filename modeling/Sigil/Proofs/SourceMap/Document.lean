import Sigil.Proofs.SourceMap.Accepted
import Sigil.Proofs.SourceMap.Lookup
import Sigil.Proofs.SourceMap.Normal

/-!
# Proofs/SourceMap/Document — adjusting a document adjusts the map in it

    raw ── ofJson ──▸ m ── adjust ──▸ m'
     │                                │ normal
     └─ adjustJson ─▸ out ── ofJson ──▸ m''

Edits move columns only, so an adjusted map refers to its tables like the map it comes from and can
be written.  All its mappings are mapped; what is read back is the adjusted map in order, with
nothing cut off.
-/

namespace Sigil.SourceMap

variable {m : SourceMap}

/-! ## The adjusted map -/

/-- A mapping of an adjusted map is a mapped one of the map with its column moved. -/
theorem exists_of_mem_adjust {code : Text} {edits : List Edit} (hne : edits ≠ []) {p : Mapping}
    (hp : p ∈ (m.adjust code edits).mappings) :
    ∃ q ∈ m.mappings, q.isMapped ∧ p = adjustMapping (Shift.byLine code edits) q := by
  rw [mappings_adjust m code hne] at hp
  obtain ⟨q, hq, rfl⟩ := List.mem_map.1 hp
  obtain ⟨hmem, hmapped⟩ := List.mem_filter.1 hq
  exact ⟨q, hmem, hmapped, rfl⟩

/-- Adjusting touches the mappings only. -/
theorem adjust_eq (m : SourceMap) (code : Text) (edits : List Edit) :
    m.adjust code edits = { m with mappings := (m.adjust code edits).mappings } := by
  rw [adjust]
  split <;> rfl

theorem Complete.adjust (h : m.Complete) (code : Text) {edits : List Edit} (hne : edits ≠ []) :
    (m.adjust code edits).Complete := by
  rw [adjust_eq]
  refine { h with line := fun p hp => ?_, drawn := fun p hp => ?_ }
  · obtain ⟨q, hq, -, rfl⟩ := exists_of_mem_adjust hne hp
    exact h.line q hq
  · obtain ⟨q, hq, -, rfl⟩ := exists_of_mem_adjust hne hp
    exact ⟨(h.drawn q hq).source, (h.drawn q hq).name⟩

/-- **The normal form of an adjusted map** is the map itself with its mappings in order. -/
theorem normal_adjust (code : Text) {edits : List Edit} (hne : edits ≠ []) :
    (m.adjust code edits).normal = { m.adjust code edits with
      mappings := (m.adjust code edits).mappings.mergeSort Mapping.before } := by
  have hreduced : ∀ p ∈ (m.adjust code edits).mappings.mergeSort Mapping.before,
      p.reduced = p := fun p hp => by
    obtain ⟨q, -, hmapped, rfl⟩ := exists_of_mem_adjust hne (List.mem_mergeSort.1 hp)
    exact Mapping.reduced_of_isMapped hmapped
  rw [normal, normalMappings, List.map_congr_left hreduced, List.map_id']

/-! ## Documents -/

/-- A document whose fields have the types of a source map's.  Fields may be missing. -/
structure Typed (entries : List (String × Json)) : Prop where
  mappings : ∀ v, Json.get? entries "mappings" = some v → ∃ s, v = .str s
  sources : ListsText entries "sources"
  names : ListsText entries "names"
  content : ListsText entries "sourcesContent"

/-- Such a document is read, or a flaw of it is reported; no value is of the wrong type. -/
theorem Typed.flaw_or_ok {entries : List (String × Json)} (h : Typed entries) :
    (∃ f, ofJson (.obj entries) = .error (.ofFlaw f)) ∨ ∃ m, ofJson (.obj entries) = .ok m := by
  obtain ⟨sources, hsources, -⟩ := h.sources
  obtain ⟨names, hnames, -⟩ := h.names
  obtain ⟨content, hcontent, -⟩ := h.content
  simp only [field] at hsources hnames hcontent
  have hmappings : ∃ s, (Json.get? entries "mappings").getD (.str "") = .str s := by
    cases hv : Json.get? entries "mappings" with
    | none => exact ⟨"", rfl⟩
    | some v => exact h.mappings v hv
  obtain ⟨text, htext⟩ := hmappings
  simp only [ofJson, hsources, hnames, hcontent, htext]
  split
  · exact .inl ⟨_, rfl⟩
  split
  · exact .inl ⟨_, rfl⟩
  split
  · exact .inl ⟨_, rfl⟩
  · exact .inr ⟨_, rfl⟩

/-- What cannot be read cannot be adjusted, for the same reason. -/
theorem adjustJson_of_error {raw : Json} {e : Error} (h : ofJson raw = .error e) (code : Text)
    {edits : List Edit} (hne : edits ≠ []) : adjustJson raw code edits = ([], .error e) := by
  rw [adjustJson, if_neg (by simpa using hne), h]

theorem adjustJson_of_ok {raw out : Json} (h : ofJson raw = .ok m) (code : Text)
    {edits : List Edit} (hne : edits ≠ []) (hout : (m.adjust code edits).toJson = .ok out) :
    adjustJson raw code edits = (m.adjustNotices edits, .ok out) := by
  rw [adjustJson, if_neg (by simpa using hne), h]
  simp only [hout]

/-- **Adjusting a document agrees with adjusting the map in it.**  Where there are edits, a document
is refused exactly as it is refused when it is read, and what is reported is a flaw of it.  Any
other is adjusted, and the outcome reads as the adjusted map, its mappings put in order. -/
theorem ofJson_adjustJson {entries : List (String × Json)} (h : Typed entries) (code : Text)
    {edits : List Edit} (hne : edits ≠ []) :
    (∀ e, (adjustJson (.obj entries) code edits).2 = .error e ↔
      ofJson (.obj entries) = .error e) ∧
    (∀ e, ofJson (.obj entries) = .error e → ∃ f, e = .ofFlaw f) ∧
    ((∀ e, ofJson (.obj entries) ≠ .error e) → ∃ m out,
      ofJson (.obj entries) = .ok m ∧ (adjustJson (.obj entries) code edits).2 = .ok out ∧
        ofJson out = .ok { m.adjust code edits with
          mappings := (m.adjust code edits).mappings.mergeSort Mapping.before }) := by
  rcases h.flaw_or_ok with ⟨f, hf⟩ | ⟨m, hm⟩
  · rw [adjustJson_of_error hf code hne, hf]
    refine ⟨fun e => ?_, fun e he => ⟨f, (Except.error.inj he).symm⟩, fun hno => absurd rfl (hno _)⟩
    simp only [Except.error.injEq]
  · have hcomplete := (complete_of_ofJson hm).adjust code hne
    have htext := textual_of_ofJson h.sources h.names hm
    have htextual : (m.adjust code edits).Textual := by
      rw [adjust_eq] at hcomplete ⊢
      exact hcomplete.textual htext.sources htext.names
    obtain ⟨out, hout, hread⟩ := hcomplete.exists_toJson htextual
    rw [normal_adjust code hne] at hread
    rw [adjustJson_of_ok hm code hne hout, hm]
    refine ⟨fun e => ?_, fun e he => ?_, fun _ => ⟨m, out, rfl, rfl, hread⟩⟩
    · constructor <;>
      · intro h
        cases h
    · cases he

/-- A document of `#ab+🙂#c;` whose mappings come out of order, one of them inside a name, one
without a source and one unmapped; one source is listed twice and there are too many contents. -/
def crowded : List (String × Json) := [
  ("version", .int 3), ("sources", .arr [.str "a.ts", .null, .str "a.ts"]),
  ("names", .arr [.str "f"]), ("mappings", .str "MAAAA,HBgAA,DAAA,CCAA,E;"),
  ("sourcesContent", .arr [.str "let f", .null, .null, .str "more"])]

/-- What it is read as. -/
def crowdedMap : SourceMap where
  mappings := [⟨1, 6, .str "a.ts", some 1, some 0, .str "f"⟩,
    ⟨1, 3, .str "a.ts", some 1, some 0, .null⟩, ⟨1, 2, .str "a.ts", some 1, some 0, .null⟩,
    ⟨1, 3, .null, some 1, some 0, .null⟩, { generatedLine := 1, generatedColumn := 5 }]
  sources := [.str "a.ts", .null, .str "a.ts"]
  sourcesContent := [.str "let f", .null, .null]
  names := [.str "f"]

theorem ofJson_crowded : ofJson (.obj crowded) = .ok crowdedMap := rfl

/-- Two of its mappings are dropped, and the others move; the last still comes first. -/
theorem adjust_crowdedMap :
    crowdedMap.adjust "#ab+🙂#c;".toList [⟨5, 7, "$b".toList⟩, ⟨0, 3, "$a".toList⟩]
      = { crowdedMap with
        mappings := [⟨1, 0, .str "a.ts", some 1, some 0, .null⟩,
          ⟨1, 2, .str "a.ts", some 1, some 0, .null⟩,
          ⟨1, 5, .str "a.ts", some 1, some 0, .str "f"⟩].reverse } := by
  rw [adjust, Shift.byLine, Edit.sorted_of_perm (.swap _ _ _) (by decide)]
  rfl

theorem toJson_adjust_crowdedMap :
    (crowdedMap.adjust "#ab+🙂#c;".toList [⟨5, 7, "$b".toList⟩, ⟨0, 3, "$a".toList⟩]).toJson
      = .ok (.obj [("version", .int 3), ("sources", .arr [.str "a.ts", .null, .str "a.ts"]),
        ("names", .arr [.str "f"]), ("mappings", .str "AEAA,EAAA,GAAAA"),
        ("sourcesContent", .arr [.str "let f", .null, .null])]) := by
  rw [adjust_crowdedMap]
  simp only [toJson, encodeMappings]
  rw [mergeSort_of_perm before_trans before_total (List.reverse_perm _) (by decide)]
  with_unfolding_all rfl

theorem ofJson_adjustJson_crowded :
    ∃ m out, ofJson (.obj crowded) = .ok m ∧
      (adjustJson (.obj crowded) "#ab+🙂#c;".toList
        [⟨5, 7, "$b".toList⟩, ⟨0, 3, "$a".toList⟩]).2 = .ok out ∧
      ofJson out = .ok { m.adjust "#ab+🙂#c;".toList
          [⟨5, 7, "$b".toList⟩, ⟨0, 3, "$a".toList⟩] with
        mappings := (m.adjust "#ab+🙂#c;".toList
          [⟨5, 7, "$b".toList⟩, ⟨0, 3, "$a".toList⟩]).mappings.mergeSort Mapping.before } ∧
      out = .obj [("version", .int 3), ("sources", .arr [.str "a.ts", .null, .str "a.ts"]),
        ("names", .arr [.str "f"]), ("mappings", .str "AEAA,EAAA,GAAAA"),
        ("sourcesContent", .arr [.str "let f", .null, .null])] := by
  have hmappings : Json.get? crowded "mappings" = some (.str "MAAAA,HBgAA,DAAA,CCAA,E;") := rfl
  have htyped : Typed crowded := {
    mappings := fun v hv => ⟨_, Option.some.inj (hv.symm.trans hmappings)⟩
    sources := ⟨[.str "a.ts", .null, .str "a.ts"], rfl, by decide⟩
    names := ⟨[.str "f"], rfl, by decide⟩
    content := ⟨[.str "let f", .null, .null, .str "more"], rfl, by decide⟩ }
  obtain ⟨-, -, hadjusted⟩ := ofJson_adjustJson htyped "#ab+🙂#c;".toList
    (List.cons_ne_nil ⟨5, 7, "$b".toList⟩ [⟨0, 3, "$a".toList⟩])
  obtain ⟨m, out, hm, hout, hread⟩ := hadjusted fun e he => by
    rw [ofJson_crowded] at he
    cases he
  refine ⟨m, out, hm, hout, hread, Except.ok.inj (hout.symm.trans ?_)⟩
  rw [adjustJson_of_ok ofJson_crowded _ (List.cons_ne_nil _ _) toJson_adjust_crowdedMap]

theorem typed_farMap (k : Nat) : Typed (farMap k) where
  mappings := by
    intro v hv
    exact ⟨_, Option.some.inj (hv.symm.trans (tabled_farMap k).mappings)⟩
  sources := ⟨[.str "a"], rfl, by decide⟩
  names := ⟨[], rfl, by decide⟩
  content := ⟨[], rfl, by decide⟩

/-- **An index of more digits than can be shown** stops the adjustment, and yet no flaw is reported,
neither when the document is adjusted nor when it is read. -/
theorem adjustJson_farMap :
    Typed (farMap 3000) ∧
      (adjustJson (.obj (farMap 3000)) ['x'] [⟨0, 1, "$a".toList⟩]).2 = .error .overlong ∧
      ¬∃ f, ofJson (.obj (farMap 3000)) = .error (.flaw f) := by
  have hread : ofJson (.obj (farMap 3000)) = .error .overlong := overlong_farMap (k := 2999)
    (ten_pow_le_two_pow (k := 1434) (by decide) (by decide))
  rw [adjustJson_of_error hread ['x'] (List.cons_ne_nil _ _), hread]
  refine ⟨typed_farMap 3000, rfl, ?_⟩
  rintro ⟨f, hf⟩
  cases hf

end Sigil.SourceMap
