import Sigil.Proofs.SourceMap.Stream
import Sigil.Proofs.SourceMap.Tables
import Sigil.Proofs.SourceMap.Vlq

/-!
# Proofs/SourceMap/RoundTrip — reading undoes writing

    ofJson (toJson m)  =  m, its mappings in order and its tables complete

The writer keeps six running values and the reader the same six, two of them as the line and column
it stands at.  One segment takes both from equal values to equal values (`segmentValues_spec`); the
separators in front of it are what moves the reader's line and column (`readFrom_encodeFrom`).
-/

namespace Sigil

/-- What a segment keeps of a mapping: all of it if it is mapped, else the generated position. -/
def Mapping.reduced (m : Mapping) : Mapping :=
  if m.isMapped then m
  else { generatedLine := m.generatedLine, generatedColumn := m.generatedColumn }

theorem Mapping.isMapped_iff {m : Mapping} : m.isMapped ↔
    ∃ line column, m.originalLine = some line ∧ m.originalColumn = some column ∧
      m.source.isNull = false := by
  rw [isMapped]
  cases m.originalLine <;> cases m.originalColumn <;> simp

theorem Mapping.generatedColumn_reduced (m : Mapping) :
    m.reduced.generatedColumn = m.generatedColumn := by
  rw [reduced]
  split <;> rfl

namespace SourceMap

/-! ## One segment -/

section Segment

variable {sources names : List Json}

/-- The values of a writer that run on through the whole string. -/
def Written.running (w : Written) : Running := ⟨w.source, w.line, w.column, w.name⟩

theorem segmentValues_of_not_isMapped (sources names : List Json) (w : Written) {m : Mapping}
    (h : m.isMapped = false) : segmentValues sources names w m
      = ([m.generatedColumn - w.generatedColumn],
        { w with generatedColumn := m.generatedColumn }) := by
  rw [segmentValues]
  split
  · next line column hline hcolumn =>
    have hnull : m.source.isNull = true := by
      simpa [Mapping.isMapped, hline, hcolumn] using h
    exact if_pos hnull
  · rfl

/-- **One segment**: the reader gets the mapping back and ends up with the writer's values. -/
theorem segmentValues_spec (w : Written) {m : Mapping} {line : Nat}
    (hline : m.generatedLine = line) (hsource : Listed sources m.source)
    (hname : Listed names m.name) :
    (segmentValues sources names w m).1 ≠ [] ∧
      (segmentValues sources names w m).2.generatedLine = w.generatedLine ∧
      (segmentValues sources names w m).2.generatedColumn = m.generatedColumn ∧
      decodeSegment sources names line (Vlq.encode (segmentValues sources names w m).1)
          w.generatedColumn w.running
        = .ok (m.reduced, (segmentValues sources names w m).2.running) := by
  have hadd : ∀ a b : Int, a + (b - a) = b := fun a b => by omega
  rw [decodeSegment, Vlq.decode_encode]
  cases hmapped : m.isMapped with
  | false =>
    rw [segmentValues_of_not_isMapped _ _ w hmapped, Mapping.reduced, hmapped]
    simp [hadd, hline, Written.running]
  | true =>
    obtain ⟨l, k, hl, hk, hnull⟩ := Mapping.isMapped_iff.1 hmapped
    have hentry : entry? sources (indexIn sources m.source) = some m.source :=
      hsource.resolve_left (by simp [hnull])
    rw [Mapping.reduced, if_pos hmapped]
    obtain ⟨generatedLine, generatedColumn, source, originalLine, originalColumn, name⟩ := m
    simp only at hl hk hnull hentry hname hline
    subst hl hk hline
    cases hn : name.isNull with
    | true =>
      obtain rfl : name = .null := Json.isNull_iff.1 hn
      simp [segmentValues, hnull, hn, hadd, hentry, Written.running]
    | false =>
      have hentryName : entry? names (indexIn names name) = some name :=
        hname.resolve_left (by simp [hn])
      simp [segmentValues, hnull, hn, hadd, hentry, hentryName, Written.running]

end Segment

/-! ## The whole string -/

section String

variable (sources names : List Json)

theorem encodeFrom_same_line {w : Written} {m : Mapping} (h : m.generatedLine = w.generatedLine)
    (fresh : Bool) (ms : List Mapping) :
    encodeFrom sources names w fresh (m :: ms) = (if fresh then [] else [',']) ++
      (Vlq.encode (segmentValues sources names w m).1 ++
        encodeFrom sources names (segmentValues sources names w m).2 false ms) := by
  have hskip : (m.generatedLine - w.generatedLine).toNat = 0 := by omega
  rw [encodeFrom]
  simp only [hskip, if_true, List.append_assoc]

theorem encodeFrom_new_line {w : Written} {m : Mapping} {k : Nat}
    (h : m.generatedLine = w.generatedLine + (k + 1 : Nat)) (fresh : Bool) (ms : List Mapping) :
    encodeFrom sources names w fresh (m :: ms) = List.replicate (k + 1) ';' ++
      (Vlq.encode (segmentValues sources names
          { w with generatedLine := m.generatedLine, generatedColumn := 0 } m).1 ++
        encodeFrom sources names (segmentValues sources names
          { w with generatedLine := m.generatedLine, generatedColumn := 0 } m).2 false ms) := by
  have hskip : (m.generatedLine - w.generatedLine).toNat = k + 1 := by omega
  rw [encodeFrom]
  simp only [hskip, Nat.succ_ne_zero, if_false, List.append_assoc]

/-- What is written after a segment does not go on with it. -/
theorem atBreak_encodeFrom (w : Written) (ms : List Mapping) :
    AtBreak (encodeFrom sources names w false ms) := by
  cases ms with
  | nil => exact fun c hc => absurd hc (Option.not_mem_none c)
  | cons m ms =>
    rw [encodeFrom]
    cases (m.generatedLine - w.generatedLine).toNat with
    | zero => exact fun c hc => .inl (Option.some.inj hc).symm
    | succ k => exact fun c hc => .inr (Option.some.inj hc).symm

variable {sources names}

/-- **Reading what is written** from one mapping on: writer and reader start from equal values. -/
theorem readFrom_encodeFrom {ms : List Mapping}
    (hlisted : ∀ m ∈ ms, Listed sources m.source ∧ Listed names m.name)
    (hsorted : ms.Pairwise fun a b => a.generatedLine ≤ b.generatedLine) {w : Written}
    {line : Nat} (hline : w.generatedLine = line) (fresh : Bool)
    (hge : ∀ m ∈ ms, w.generatedLine ≤ m.generatedLine) :
    readFrom sources names line w.generatedColumn w.running (encodeFrom sources names w fresh ms)
      = .ok (ms.map Mapping.reduced) := by
  induction ms generalizing w line fresh with
  | nil => exact readFrom_nil sources names line w.generatedColumn w.running
  | cons m ms ih =>
    obtain ⟨⟨hsource, hname⟩, hlisted⟩ := List.forall_mem_cons.1 hlisted
    obtain ⟨hfirst, hsorted⟩ := List.pairwise_cons.1 hsorted
    -- the writer stands at the mapping's line, and its separators are written
    have hsegment : ∀ (v : Written) (l : Nat), v.generatedLine = m.generatedLine →
        m.generatedLine = l → readFrom sources names l v.generatedColumn v.running
          (Vlq.encode (segmentValues sources names v m).1 ++
            encodeFrom sources names (segmentValues sources names v m).2 false ms)
          = .ok ((m :: ms).map Mapping.reduced) := by
      intro v l hv hl
      obtain ⟨hne, hwline, hwcolumn, hdecode⟩ := segmentValues_spec v hl hsource hname
      refine readFrom_segment (Vlq.encode_ne_nil hne) (Vlq.comma_notMem_encode _)
        (Vlq.semicolon_notMem_encode _) (atBreak_encodeFrom sources names _ ms) hdecode ?_
      rw [Mapping.generatedColumn_reduced, ← hwcolumn]
      refine ih hlisted hsorted (hwline.trans (hv.trans hl)) false fun a ha => ?_
      rw [hwline, hv]
      exact hfirst a ha
    obtain ⟨k, hk⟩ := Int.le.dest (hge m List.mem_cons_self)
    cases k with
    | zero =>
      have hsame : m.generatedLine = w.generatedLine := by omega
      rw [encodeFrom_same_line sources names hsame]
      have hread := hsegment w line hsame.symm (hsame.trans hline)
      cases fresh with
      | true => exact hread
      | false => exact (readFrom_comma sources names _ _ _ _).trans hread
    | succ k =>
      rw [encodeFrom_new_line sources names hk.symm, readFrom_semicolons]
      exact hsegment { w with generatedLine := m.generatedLine, generatedColumn := 0 } _ rfl
        (by omega)

end String

/-! ## The mappings in order -/

theorem before_trans (a b c : Mapping) (hab : Mapping.before a b) (hbc : Mapping.before b c) :
    Mapping.before a c := by
  simp only [Mapping.before, Bool.or_eq_true, Bool.and_eq_true, decide_eq_true_eq] at hab hbc ⊢
  omega

theorem before_total (a b : Mapping) : Mapping.before a b || Mapping.before b a := by
  simp only [Mapping.before, Bool.or_eq_true, Bool.and_eq_true, decide_eq_true_eq]
  omega

theorem generatedLine_le_of_before {a b : Mapping} (h : Mapping.before a b) :
    a.generatedLine ≤ b.generatedLine := by
  simp only [Mapping.before, Bool.or_eq_true, Bool.and_eq_true, decide_eq_true_eq] at h
  omega

theorem decodeMappings_encodeMappings {sources names : List Json} {ms : List Mapping}
    (hlisted : ∀ m ∈ ms, Listed sources m.source ∧ Listed names m.name)
    (hlines : ∀ m ∈ ms, 1 ≤ m.generatedLine) :
    decodeMappings sources names (encodeMappings sources names ms)
      = .ok ((ms.mergeSort Mapping.before).map Mapping.reduced) := by
  have hmem : ∀ m, m ∈ ms.mergeSort Mapping.before ↔ m ∈ ms := fun m =>
    (List.mergeSort_perm ms Mapping.before).mem_iff
  have hsorted : (ms.mergeSort Mapping.before).Pairwise
      fun a b => a.generatedLine ≤ b.generatedLine :=
    (List.pairwise_mergeSort before_trans before_total ms).imp generatedLine_le_of_before
  rw [decodeMappings_eq_readFrom, encodeMappings]
  exact readFrom_encodeFrom (fun m hm => hlisted m ((hmem m).1 hm)) hsorted (w := {}) rfl true
    fun m hm => hlines m ((hmem m).1 hm)

/-! ## The document -/

/-- The entries of an object that are not `null`. -/
def present (fields : List (String × Json)) : List (String × Json) :=
  fields.filter fun e => !e.2.isNull

theorem present_cons (key : String) (v : Json) (fields : List (String × Json)) :
    present ((key, v) :: fields) = (if v.isNull then [] else [(key, v)]) ++ present fields := by
  rw [present, List.filter_cons]
  cases v.isNull <;> rfl

/-- An entry that is left out reads as `null`, if no key stands twice. -/
theorem lookup_present {fields : List (String × Json)} (h : (fields.map Prod.fst).Nodup)
    (key : String) :
    (present fields).lookup key = (fields.lookup key).filter fun v => !v.isNull := by
  induction fields with
  | nil => rfl
  | cons e fields ih =>
    obtain ⟨k, v⟩ := e
    obtain ⟨hkey, h⟩ := List.nodup_cons.1 h
    have hrest : (fields.filter fun e => !e.2.isNull).lookup key
        = (fields.lookup key).filter fun v => !v.isNull := ih h
    rw [present, List.filter_cons, List.lookup_cons]
    by_cases hk : key = k
    · subst hk
      have hnone : fields.lookup key = none :=
        List.lookup_eq_none_iff.2 fun p hp => bne_iff_ne.2 fun heq =>
          hkey (List.mem_map.2 ⟨p, hp, heq.symm⟩)
      rw [hnone] at hrest
      cases hnull : v.isNull <;> simp [hnull, hrest, Option.filter]
    · have hbeq : (key == k) = false := beq_eq_false_iff_ne.2 hk
      cases hnull : v.isNull <;> simp [hrest, hbeq, List.lookup_cons]

/-- What a map is written as, its tables and mappings given; `null` is left out. -/
def fields (m : SourceMap) (sources names content : List Json) (mappings : Text) :
    List (String × Json) :=
  [("version", m.version), ("file", m.file), ("sourceRoot", m.sourceRoot),
    ("sources", .arr sources), ("names", .arr names),
    ("mappings", .str (String.ofList mappings)),
    ("sourcesContent", if content.all (·.isNull) then .null else .arr content)]

section Document

variable {m : SourceMap} {sources names content : List Json} {mappings : Text}

theorem get?_fields (key : String) :
    Json.get? (present (fields m sources names content mappings)) key
      = ((fields m sources names content mappings).lookup key).filter fun v => !v.isNull :=
  lookup_present (by simp [fields]) key

theorem isNull_of_same_int {v : Json} {i : Int} (h : v.same (.int i)) : v.isNull = false := by
  cases v with
  | null => simp [Json.same, Json.number?] at h
  | bool | int | double | str | arr | obj => rfl

/-- A list of its own length is neither cut nor filled up. -/
theorem fit_length (items : List Json) : fit items.length items = items := by
  rw [fit, List.take_length, Nat.sub_self, List.replicate_zero, List.append_nil]

/-- Contents that were left out because all of them are `null` are filled in again. -/
theorem exists_content (content : List Json) (n : Nat) :
    ∃ c, tableOf (if content.all (·.isNull) then .null else .arr content) = .ok c ∧
      fit n c = fit n content := by
  split
  · next hall =>
    refine ⟨[], rfl, ?_⟩
    have hnull : ∀ v ∈ fit n content, v = .null := by
      refine List.forall_mem_append.2 ⟨fun v hv => ?_, fun v => List.eq_of_mem_replicate⟩
      exact Json.isNull_iff.1 (List.all_eq_true.1 hall v (List.mem_of_mem_take hv))
    have hlength : (fit n content).length = n := by
      rw [fit, List.length_append, List.length_take, List.length_replicate]
      omega
    rw [List.eq_replicate_iff.2 ⟨hlength, hnull⟩, fit, List.take_nil, List.nil_append,
      List.length_nil, Nat.sub_zero]
  · exact ⟨content, rfl, rfl⟩

/-- What a written map reads as, its tables and mappings given; there will be one content for every
source, however many there were. -/
theorem ofJson_fields_fit {ms : List Mapping} (hversion : m.version.same (.int 3))
    (hmappings : decodeMappings sources names mappings = .ok ms) :
    ofJson (.obj (present (fields m sources names content mappings))) = .ok { m with
      mappings := ms, sources := sources, names := names,
      sourcesContent := fit sources.length content } := by
  obtain ⟨c, htable, hfit⟩ := exists_content content sources.length
  have hget := @get?_fields m sources names content mappings
  generalize present (fields m sources names content mappings) = entries at hget
  have hgetD : ∀ (key : String) (v : Json),
      (fields m sources names content mappings).lookup key = some v →
        (Json.get? entries key).getD .null = v := by
    intro key v hv
    rw [hget, hv]
    cases v <;> rfl
  have hv : Json.get? entries "version" = some m.version := by
    rw [hget, fields]
    simp [Option.filter, isNull_of_same_int hversion]
  have hsections : Json.get? entries "sections" = none := by
    rw [hget, fields]
    simp [List.lookup_cons]
  have hmap : Json.get? entries "mappings" = some (.str (String.ofList mappings)) := by
    rw [hget, fields]
    simp [List.lookup_cons, Option.filter, Json.isNull]
  have hfile := hgetD "file" m.file (by simp [fields, List.lookup_cons])
  have hroot := hgetD "sourceRoot" m.sourceRoot (by simp [fields, List.lookup_cons])
  have hsources := hgetD "sources" (.arr sources) (by simp [fields, List.lookup_cons])
  have hnames := hgetD "names" (.arr names) (by simp [fields, List.lookup_cons])
  have hcontents := hgetD "sourcesContent" _ (by simp only [fields, List.lookup_cons]; rfl)
  have harr : ∀ items : List Json, tableOf (.arr items) = .ok items := fun _ => rfl
  simp only [ofJson, hv, hsections, hmap, hfile, hroot, hsources, hnames, hcontents, htable, hfit,
    hversion, Option.getD_some, harr, String.toList_ofList, hmappings]
  simp

/-- Contents that match the sources are read as they are. -/
theorem ofJson_fields {ms : List Mapping} (hversion : m.version.same (.int 3))
    (hcontent : content.length = sources.length)
    (hmappings : decodeMappings sources names mappings = .ok ms) :
    ofJson (.obj (present (fields m sources names content mappings))) = .ok { m with
      mappings := ms, sources := sources, names := names, sourcesContent := content } := by
  rw [ofJson_fields_fit hversion hmappings, ← hcontent, fit_length]

end Document

/-- The sources of a written map. -/
def allSources (m : SourceMap) : List Json := extend m.sources (m.mappings.map (·.source))

/-- The names of a written map. -/
def allNames (m : SourceMap) : List Json := extend m.names (m.mappings.map (·.name))

/-- The contents of a written map, filled up for the sources it had and for those put to them. -/
def writtenContent (m : SourceMap) : List Json :=
  m.sourcesContent ++ List.replicate (m.sources.length - m.sourcesContent.length) .null ++
    List.replicate ((allSources m).length - m.sources.length) .null

/-- **A map is written** as its fields, if its tables hold no list and no object. -/
theorem toJson_eq_fields {m : SourceMap} (hversion : m.version.isNull = false)
    (hplain : ∀ v ∈ allSources m ++ allNames m, v.isCollection = false) :
    m.toJson = .ok (.obj (present (fields m (allSources m) (allNames m) (writtenContent m)
      (encodeMappings (allSources m) (allNames m) m.mappings)))) := by
  have hnone : ((allSources m).any (·.isCollection) || (allNames m).any (·.isCollection))
      = false := by
    rw [← List.any_append, List.any_eq_false]
    exact fun v hv => by simp [hplain v hv]
  have hcontent : m.sourcesContent ++
      List.replicate (m.sources.length - m.sourcesContent.length) .null ++
      List.replicate ((allSources m).length - m.sources.length) .null = writtenContent m := rfl
  have hnil : present [] = [] := rfl
  have harr : ∀ items, (Json.arr items).isNull = false := fun _ => rfl
  have hstr : ∀ s, (Json.str s).isNull = false := fun _ => rfl
  have hnull : Json.null.isNull = true := rfl
  have hsources : extend m.sources (m.mappings.map (·.source)) = allSources m := rfl
  have hnames : extend m.names (m.mappings.map (·.name)) = allNames m := rfl
  rw [toJson, fields]
  simp only [hsources, hnames, hcontent, hnone, Bool.false_eq_true, if_false]
  cases (writtenContent m).all (·.isNull) <;> simp [present_cons, hversion, hnil, harr, hstr, hnull]

/-- The contents of a written map that has no more of them than sources: `null` for every source
that came without one. -/
def allContent (m : SourceMap) : List Json :=
  m.sourcesContent ++ List.replicate ((allSources m).length - m.sourcesContent.length) .null

theorem toJson_eq {m : SourceMap} (hversion : m.version.isNull = false)
    (hplain : ∀ v ∈ allSources m ++ allNames m, v.isCollection = false)
    (hcontent : m.sourcesContent.length ≤ m.sources.length)
    (hlength : m.sources.length ≤ (allSources m).length) :
    m.toJson = .ok (.obj (present (fields m (allSources m) (allNames m) (allContent m)
      (encodeMappings (allSources m) (allNames m) m.mappings)))) := by
  have hpadded : writtenContent m = allContent m := by
    have hsum : m.sources.length - m.sourcesContent.length +
        ((allSources m).length - m.sources.length)
        = (allSources m).length - m.sourcesContent.length := by omega
    rw [writtenContent, List.append_assoc, List.replicate_append_replicate, hsum, allContent]
  rw [toJson_eq_fields hversion hplain, hpadded]

/-! ## The round trip -/

/-- The sources and names of a map are strings, or `null` where there is none. -/
structure Textual (m : SourceMap) : Prop where
  sources : ∀ v ∈ m.sources, v.isTextual
  names : ∀ v ∈ m.names, v.isTextual
  source : ∀ p ∈ m.mappings, p.source.isTextual
  name : ∀ p ∈ m.mappings, p.name.isTextual

namespace Textual

variable {m : SourceMap} (h : m.Textual)
include h

/-- The tables of a written map hold no list and no object. -/
theorem isCollection_eq_false : ∀ v ∈ allSources m ++ allNames m, v.isCollection = false := by
  refine List.forall_mem_append.2 ⟨fun v hv => ?_, fun v hv => ?_⟩
  · exact Json.isCollection_of_isTextual
      (isTextual_of_mem_extend h.sources (List.forall_mem_map.2 h.source) v hv)
  · exact Json.isCollection_of_isTextual
      (isTextual_of_mem_extend h.names (List.forall_mem_map.2 h.name) v hv)

/-- They give every source and every name of a mapping back under its index. -/
theorem listed : ∀ p ∈ m.mappings, Listed (allSources m) p.source ∧ Listed (allNames m) p.name :=
  fun _ hp => ⟨listed_of_mem h.sources (List.forall_mem_map.2 h.source) (List.mem_map_of_mem hp),
    listed_of_mem h.names (List.forall_mem_map.2 h.name) (List.mem_map_of_mem hp)⟩

end Textual

/-- What a map reads as once it was written: its mappings in order, each cut down to what a segment
keeps, its tables with the strings they lacked, and a content, maybe `null`, for every source. -/
def readBack (m : SourceMap) : SourceMap :=
  let sources := m.sources ++ (unlisted m.sources (m.mappings.map (·.source))).map .str
  { m with
    mappings := (m.mappings.mergeSort Mapping.before).map Mapping.reduced
    sources := sources
    names := m.names ++ (unlisted m.names (m.mappings.map (·.name))).map .str
    sourcesContent := m.sourcesContent ++
      List.replicate (sources.length - m.sourcesContent.length) .null }

/-- **Reading undoes writing.** -/
theorem ofJson_toJson {m : SourceMap} (htextual : m.Textual) (hversion : m.version.same (.int 3))
    (hlines : ∀ p ∈ m.mappings, 1 ≤ p.generatedLine)
    (hcontent : m.sourcesContent.length ≤ m.sources.length) :
    ∃ raw, m.toJson = .ok raw ∧ ofJson raw = .ok m.readBack := by
  have hsource : ∀ v ∈ m.mappings.map (·.source), v.isTextual :=
    List.forall_mem_map.2 htextual.source
  have hname : ∀ v ∈ m.mappings.map (·.name), v.isTextual :=
    List.forall_mem_map.2 htextual.name
  have hsources : allSources m
      = m.sources ++ (unlisted m.sources (m.mappings.map (·.source))).map .str :=
    extend_eq htextual.sources hsource
  have hnames : allNames m = m.names ++ (unlisted m.names (m.mappings.map (·.name))).map .str :=
    extend_eq htextual.names hname
  have hplain : ∀ v ∈ allSources m ++ allNames m, v.isCollection = false := by
    intro v hv
    refine Json.isCollection_of_isTextual ((List.mem_append.1 hv).elim ?_ ?_)
    · exact isTextual_of_mem_extend htextual.sources hsource v
    · exact isTextual_of_mem_extend htextual.names hname v
  have hlisted : ∀ p ∈ m.mappings, Listed (allSources m) p.source ∧ Listed (allNames m) p.name :=
    fun p hp => ⟨listed_of_mem htextual.sources hsource (List.mem_map_of_mem hp),
      listed_of_mem htextual.names hname (List.mem_map_of_mem hp)⟩
  have hlength : m.sources.length ≤ (allSources m).length := by
    rw [hsources, List.length_append]
    exact Nat.le_add_right _ _
  have hcontents : (allContent m).length = (allSources m).length := by
    rw [allContent, List.length_append, List.length_replicate]
    omega
  refine ⟨_, toJson_eq (isNull_of_same_int hversion) hplain hcontent hlength, ?_⟩
  rw [ofJson_fields hversion hcontents (decodeMappings_encodeMappings hlisted hlines), readBack,
    ← hsources, ← hnames, ← allContent]

/-- A map whose mappings come out of order and whose tables lack a source and a name. -/
def disordered : SourceMap where
  mappings := [⟨3, 4, .str "a.ts", some 0, some (-2), .str "f"⟩,
    { generatedLine := 1, generatedColumn := 7 }, ⟨3, 1, .str "b.ts", some 9, none, .null⟩]
  sources := [.str "c.ts", .str "c.ts"]
  sourcesContent := [.str "c"]

theorem ofJson_toJson_disordered :
    (∃ raw, disordered.toJson = .ok raw ∧ ofJson raw = .ok disordered.readBack) ∧
      disordered.readBack.sources = [.str "c.ts", .str "c.ts", .str "a.ts", .str "b.ts"] ∧
      disordered.readBack.sourcesContent = [.str "c", .null, .null, .null] := by
  have htextual : disordered.Textual := by
    constructor <;> simp [disordered, Json.isTextual]
  exact ⟨ofJson_toJson htextual rfl (by decide) (by decide), rfl, rfl⟩

end SourceMap

end Sigil
