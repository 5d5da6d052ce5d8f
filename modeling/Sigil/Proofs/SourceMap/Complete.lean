import Sigil.Proofs.SourceMap.Tables

/-!
# Proofs/SourceMap/Complete — a map that was read refers to its own tables

Every index is looked up as it is read, so a mapping of a map that was read has its source and its
name from the tables of this map, or none (`complete_of_ofJson`).  The segments of a line lie on
this line and the lines count up from 1; contents are cut and filled up to one for every source.
-/

namespace Sigil.SourceMap

/-! ## Mappings -/

/-- A mapping whose source and name, where it has them, come from tables. -/
structure Drawn (sources names : List Json) (p : Mapping) : Prop where
  source : p.source.isNull ∨ p.source ∈ sources
  name : p.name.isNull ∨ p.name ∈ names

theorem mem_of_entry {table : List Json} {i : Int} {v : Json} (h : entry? table i = some v) :
    v ∈ table := by
  unfold entry? at h
  split at h
  · cases h
  · exact List.mem_of_getElem? h

variable {sources names : List Json}

/-- **A segment** is read as a mapping of its line, drawn from the tables. -/
theorem drawn_of_decodeSegment {line : Nat} {segment : Text} {column : Int} {r s : Running}
    {p : Mapping} (h : decodeSegment sources names line segment column r = .ok (p, s)) :
    p.generatedLine = line ∧ Drawn sources names p := by
  rw [decodeSegment] at h
  split at h
  · cases h
  · obtain ⟨rfl, -⟩ := Prod.mk.inj (Except.ok.inj h)
    exact ⟨rfl, .inl rfl, .inl rfl⟩
  · simp only at h
    split at h
    · cases h
    next v hv =>
    obtain ⟨rfl, -⟩ := Prod.mk.inj (Except.ok.inj h)
    exact ⟨rfl, .inr (mem_of_entry hv), .inl rfl⟩
  · simp only at h
    split at h
    · cases h
    next n hn =>
    split at h
    · cases h
    next v hv =>
    obtain ⟨rfl, -⟩ := Prod.mk.inj (Except.ok.inj h)
    exact ⟨rfl, .inr (mem_of_entry hv), .inr (mem_of_entry hn)⟩
  · cases h

/-- **The segments of a line** are read as mappings of this line. -/
theorem drawn_of_decodeSegments {line : Nat} {segments : List Text} {column : Int}
    {r s : Running} {ps : List Mapping}
    (h : decodeSegments sources names line column r segments = .ok (ps, s)) :
    ∀ p ∈ ps, p.generatedLine = line ∧ Drawn sources names p := by
  induction segments generalizing column r s ps with
  | nil =>
    obtain ⟨rfl, -⟩ := Prod.mk.inj (Except.ok.inj h)
    exact fun p hp => absurd hp List.not_mem_nil
  | cons segment segments ih =>
    rw [decodeSegments.eq_def] at h
    split at h
    · next heq => cases heq
    · next heq =>
      obtain ⟨rfl, rfl⟩ := List.cons.inj heq
      exact ih h
    · next heq =>
      obtain ⟨rfl, rfl⟩ := List.cons.inj heq
      split at h
      · cases h
      next p t hfirst =>
      split at h
      · cases h
      next qs u hrest =>
      obtain ⟨rfl, rfl⟩ := Prod.mk.inj (Except.ok.inj h)
      exact List.forall_mem_cons.2 ⟨drawn_of_decodeSegment hfirst, ih hrest⟩

/-- **Lines** are read as mappings from the first line on. -/
theorem drawn_of_decodeLines {line : Nat} {texts : List Text} {r : Running} {ps : List Mapping}
    (h : decodeLines sources names line r texts = .ok ps) :
    ∀ p ∈ ps, (line : Int) ≤ p.generatedLine ∧ Drawn sources names p := by
  induction texts generalizing line r ps with
  | nil =>
    obtain rfl := Except.ok.inj h
    exact fun p hp => absurd hp List.not_mem_nil
  | cons text texts ih =>
    rw [decodeLines] at h
    split at h
    · cases h
    next qs s hfirst =>
    split at h
    · cases h
    next more hrest =>
    obtain rfl := Except.ok.inj h
    refine List.forall_mem_append.2 ⟨fun p hp => ?_, fun p hp => ?_⟩
    · exact (drawn_of_decodeSegments hfirst p hp).imp_left fun hline => Int.le_of_eq hline.symm
    · exact (ih hrest p hp).imp_left fun hline => by omega

/-! ## Documents -/

/-- The value of a field, `null` if the document lacks it. -/
def field (entries : List (String × Json)) (key : String) : Json :=
  (Json.get? entries key).getD .null

/-- **A map that holds what it refers to**: its mappings lie on lines from 1 on and draw on its
tables, and it has one content, maybe `null`, for every source. -/
structure Complete (m : SourceMap) : Prop where
  version : m.version.same (.int 3)
  line : ∀ p ∈ m.mappings, 1 ≤ p.generatedLine
  drawn : ∀ p ∈ m.mappings, Drawn m.sources m.names p
  content : m.sourcesContent.length = m.sources.length

theorem length_fit (n : Nat) (items : List Json) : (fit n items).length = n := by
  rw [fit, List.length_append, List.length_take, List.length_replicate]
  omega

/-- What a document has to hold to be read as a map. -/
theorem exists_of_ofJson {raw : Json} {m : SourceMap} (h : ofJson raw = .ok m) :
    ∃ entries content text, raw = .obj entries ∧ m.version.same (.int 3) ∧
      tableOf (field entries "sources") = .ok m.sources ∧
      tableOf (field entries "names") = .ok m.names ∧
      decodeMappings m.sources m.names text = .ok m.mappings ∧
      m.sourcesContent = fit m.sources.length content := by
  rw [ofJson.eq_def] at h
  split at h
  next entries =>
    simp only at h
    split at h
    · cases h
    next hversion =>
    split at h
    · cases h
    split at h
    next sources names content hsources hnames hcontent =>
      split at h
      next text htext =>
        split at h
        · cases h
        next ps hps =>
        obtain rfl := Except.ok.inj h
        exact ⟨entries, content, text.toList, rfl, by simpa using hversion, hsources, hnames, hps,
          rfl⟩
      · cases h
    · cases h
    · cases h
    · cases h
  · cases h

/-- **A map that was read is complete.** -/
theorem complete_of_ofJson {raw : Json} {m : SourceMap} (h : ofJson raw = .ok m) : m.Complete := by
  obtain ⟨-, content, text, -, hversion, -, -, hmappings, hcontent⟩ := exists_of_ofJson h
  have hdrawn := drawn_of_decodeLines hmappings
  exact {
    version := hversion
    line := fun p hp => (hdrawn p hp).1
    drawn := fun p hp => (hdrawn p hp).2
    content := hcontent ▸ length_fit _ _ }

end Sigil.SourceMap
