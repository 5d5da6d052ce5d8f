import Sigil.Proofs.SourceMap.Complete
import Sigil.Proofs.SourceMap.Refused

/-!
# Proofs/SourceMap/Accepted — which strings are mappings, and what they say

    refused  ⟺  some segment does not decode, has not 1, 4 or 5 values, or leads out of a table

The condition on one segment (`Proofs/SourceMap/Refused`) depends on the values before it, so it is
asked of every way to split the text.  What is reported of a refused text is decided by the first
segment that is to be refused.
-/

namespace Sigil.SourceMap

variable {sources names : List Json} {before : List Segment} {s : Segment}

/-! ## All segments -/

/-- What holds at every place of a list holds at its first place, and at the others. -/
theorem forall_split_cons {α : Type} {P : List α → α → Prop} {x : α} {xs : List α} :
    (∀ a y b, x :: xs = a ++ y :: b → P a y) ↔
      P [] x ∧ ∀ a y b, xs = a ++ y :: b → P (x :: a) y := by
  constructor
  · intro h
    exact ⟨h [] x xs rfl, fun a y b hxs => h (x :: a) y b (congrArg (x :: ·) hxs)⟩
  · rintro ⟨hhead, htail⟩ a y b hsplit
    cases a with
    | nil =>
      obtain ⟨rfl, -⟩ := List.cons.inj hsplit
      exact hhead
    | cons z a =>
      obtain ⟨rfl, hxs⟩ := List.cons.inj hsplit
      exact htail a y b hxs

/-- No segment is to be refused. -/
def Accepted (sources names : List Json) (before ss : List Segment) : Prop :=
  ∀ a s b, ss = a ++ s :: b → ¬Refused sources names (before ++ a) s

theorem accepted_cons {ss : List Segment} : Accepted sources names before (s :: ss) ↔
    ¬Refused sources names before s ∧ Accepted sources names (before ++ [s]) ss := by
  rw [Accepted, forall_split_cons, Accepted, List.append_nil]
  simp only [List.append_assoc, List.singleton_append]

/-- Where some segment is to be refused, there is a first one. -/
theorem exists_first_of_not_accepted {ss : List Segment}
    (h : ¬Accepted sources names before ss) : ∃ a s b, ss = a ++ s :: b ∧
      Accepted sources names before a ∧ Refused sources names (before ++ a) s := by
  induction ss generalizing before with
  | nil => exact absurd (fun a s b hsplit => by simp at hsplit) h
  | cons s ss ih =>
    by_cases hs : Refused sources names before s
    · refine ⟨[], s, ss, rfl, fun a t b hsplit => by simp at hsplit, ?_⟩
      rw [List.append_nil]
      exact hs
    · obtain ⟨a, t, b, hsplit, ha, ht⟩ := ih fun hrest => h (accepted_cons.2 ⟨hs, hrest⟩)
      refine ⟨s :: a, t, b, congrArg (s :: ·) hsplit, accepted_cons.2 ⟨hs, ha⟩, ?_⟩
      rw [List.append_assoc] at ht
      exact ht

/-- **The first segment to be refused tells the flaw of the whole.** -/
theorem readSegments_of_first {a b : List Segment} {f : Flaw}
    (ha : Accepted sources names before a)
    (h : readSegment sources names (before ++ a) s = .error f) :
    readSegments sources names before (a ++ s :: b) = .error f := by
  induction a generalizing before with
  | nil =>
    rw [List.append_nil] at h
    rw [List.nil_append, readSegments, h]
  | cons t a ih =>
    obtain ⟨ht, hrest⟩ := accepted_cons.1 ha
    obtain ⟨p, r, hp, -⟩ := exists_says ht
    rw [List.append_cons] at h
    rw [List.cons_append, readSegments, hp]
    simp only [ih hrest h]

/-- **Where no segment is refused, each is read**, in order. -/
theorem Accepted.exists_says {ss : List Segment} (h : Accepted sources names before ss) :
    ∃ ps, readSegments sources names before ss = .ok ps ∧ ps.length = ss.length ∧
      ∀ a s b, ss = a ++ s :: b →
        ∃ p, ps[a.length]? = some p ∧ Says sources names (before ++ a) s p := by
  induction ss generalizing before with
  | nil => exact ⟨[], rfl, rfl, fun a s b hsplit => by simp at hsplit⟩
  | cons s ss ih =>
    obtain ⟨hs, hrest⟩ := accepted_cons.1 h
    obtain ⟨p, r, hp, hsays⟩ := SourceMap.exists_says hs
    obtain ⟨ps, hps, hlength, hall⟩ := ih hrest
    refine ⟨p :: ps, ?_, ?_, forall_split_cons.2 ⟨⟨p, rfl, ?_⟩, fun a t b hsplit => ?_⟩⟩
    · rw [readSegments, hp]
      simp only [hps]
    · rw [List.length_cons, List.length_cons, hlength]
    · rw [List.append_nil]
      exact hsays
    · obtain ⟨q, hq, hsays⟩ := hall a t b hsplit
      rw [List.append_assoc] at hsays
      exact ⟨q, hq, hsays⟩

/-! ## Documents -/

/-- A document of version 3 that is no index of other maps, with given tables and mappings.  Its
contents, if it has any, can be listed. -/
structure Tabled (entries : List (String × Json)) (sources names : List Json) (text : String) :
    Prop where
  version : ((Json.get? entries "version").getD (.int 3)).same (.int 3)
  sections : Json.get? entries "sections" = none
  sources : Json.get? entries "sources" = some (.arr sources)
  names : Json.get? entries "names" = some (.arr names)
  mappings : Json.get? entries "mappings" = some (.str text)
  content : ∃ content, tableOf (field entries "sourcesContent") = .ok content

variable {entries : List (String × Json)} {text : String}

/-- Such a document is read if its mappings are, and refused for their flaw if they are not. -/
theorem Tabled.ofJson_eq (h : Tabled entries sources names text) : ∃ m : SourceMap,
    m.sources = sources ∧ m.names = names ∧ ofJson (.obj entries) =
      match decodeMappings sources names text.toList with
      | .error f => .error (.ofFlaw f)
      | .ok ps => .ok { m with mappings := ps } := by
  obtain ⟨content, hcontent⟩ := h.content
  have harr : ∀ items : List Json, tableOf (.arr items) = .ok items := fun _ => rfl
  rw [field] at hcontent
  simp only [ofJson, h.version, h.sections, h.sources, h.names, h.mappings, hcontent, harr,
    Option.getD_some]
  exact ⟨⟨[], sources, fit sources.length content, names, _, _, _⟩, rfl, rfl, rfl⟩

/-- The first segment of a text that is to be refused, with those before it. -/
def FirstRefused (sources names : List Json) (text : Text) (before : List Segment) (s : Segment) :
    Prop :=
  (∃ after, segments text = before ++ s :: after) ∧
    (∀ a t b, before = a ++ t :: b → ¬Refused sources names a t) ∧ Refused sources names before s

/-- **What is reported of a document** whose first segment to be refused is known. -/
theorem Tabled.ofJson_of_first (h : Tabled entries sources names text)
    (hfirst : FirstRefused sources names text.toList before s) :
    (Overlong sources names before s → ofJson (.obj entries) = .error .overlong) ∧
      (¬Overlong sources names before s → ∃ f, ofJson (.obj entries) = .error (.flaw f)) := by
  obtain ⟨m, -, -, hread⟩ := h.ofJson_eq
  obtain ⟨⟨after, hsplit⟩, hbefore, hrefused⟩ := hfirst
  obtain ⟨f, hf⟩ := hrefused.exists_error
  have hall : readSegments sources names [] (before ++ s :: after) = .error f :=
    readSegments_of_first hbefore hf
  rw [decodeMappings_eq_readSegments, hsplit, hall] at hread
  have hlong := isShort_eq_false_iff hf
  simp only [hread, Error.ofFlaw]
  constructor
  · intro ho
    rw [hlong.2 ho]
    rfl
  · intro ho
    rw [Bool.of_not_eq_false fun hfalse => ho (hlong.1 hfalse)]
    exact ⟨f, rfl⟩

/-- **What is read of a document** of whose segments none is to be refused. -/
theorem Tabled.ofJson_of_accepted (h : Tabled entries sources names text)
    (haccepted : Accepted sources names [] (segments text.toList)) :
    ∃ m, ofJson (.obj entries) = .ok m ∧ m.sources = sources ∧ m.names = names ∧
      m.mappings.length = (segments text.toList).length ∧
      ∀ before s after, segments text.toList = before ++ s :: after →
        ∃ p, m.mappings[before.length]? = some p ∧ Says sources names before s p := by
  obtain ⟨m, hsources, hnames, hread⟩ := h.ofJson_eq
  obtain ⟨ps, hps, hlength, hsays⟩ := haccepted.exists_says
  rw [decodeMappings_eq_readSegments, hps] at hread
  exact ⟨_, hread, hsources, hnames, hlength, hsays⟩

/-- **A string is refused exactly if some segment of it is, and read segment by segment if none
is.**  A segment is refused if it holds a character that is no digit, ends inside a value, has a
number of values without meaning, or leads out of a table.  The first such segment decides what is
reported: a flaw, unless its index has too many digits to be shown; nothing else is ever reported.
Any other document has one mapping for every segment, in order: on the line of the segment, at the
sum of the first values of this line, with the entries and the original position that the sums over
all segments so far point to. -/
theorem ofJson_iff_accepted (h : Tabled entries sources names text) :
    ((∃ e, ofJson (.obj entries) = .error e) ↔ ∃ before s after,
      segments text.toList = before ++ s :: after ∧ Refused sources names before s) ∧
    ((∃ f, ofJson (.obj entries) = .error (.flaw f)) ↔ ∃ before s,
      FirstRefused sources names text.toList before s ∧ ¬Overlong sources names before s) ∧
    (ofJson (.obj entries) = .error .overlong ↔ ∃ before s,
      FirstRefused sources names text.toList before s ∧ Overlong sources names before s) ∧
    (∀ e, ofJson (.obj entries) = .error e → e = .overlong ∨ ∃ f, e = .flaw f) ∧
    ((∀ before s after, segments text.toList = before ++ s :: after →
        ¬Refused sources names before s) →
      ∃ m, ofJson (.obj entries) = .ok m ∧ m.sources = sources ∧ m.names = names ∧
        m.mappings.length = (segments text.toList).length ∧
        ∀ before s after, segments text.toList = before ++ s :: after →
          ∃ p, m.mappings[before.length]? = some p ∧ Says sources names before s p) := by
  by_cases haccepted : Accepted sources names [] (segments text.toList)
  · obtain ⟨m, hread, hm⟩ := h.ofJson_of_accepted haccepted
    have hnofirst : ∀ {before s}, ¬FirstRefused sources names text.toList before s := by
      rintro before s ⟨⟨after, hsplit⟩, -, hrefused⟩
      exact haccepted before s after hsplit hrefused
    rw [hread]
    refine ⟨iff_of_false ?_ ?_, iff_of_false ?_ ?_, iff_of_false ?_ ?_, ?_,
      fun _ => ⟨m, rfl, hm⟩⟩
    · rintro ⟨e, he⟩
      cases he
    · rintro ⟨before, s, after, hsplit, hrefused⟩
      exact haccepted before s after hsplit hrefused
    · rintro ⟨f, hf⟩
      cases hf
    · rintro ⟨before, s, hfirst, -⟩
      exact hnofirst hfirst
    · intro he
      cases he
    · rintro ⟨before, s, hfirst, -⟩
      exact hnofirst hfirst
    · intro e he
      cases he
  · obtain ⟨a, s, b, hsplit, ha, hs⟩ := exists_first_of_not_accepted haccepted
    have hfirst : FirstRefused sources names text.toList a s := ⟨⟨b, hsplit⟩, ha, hs⟩
    -- what the first segment decides, any other first one would decide as well
    by_cases ho : Overlong sources names a s
    · have hlong := (h.ofJson_of_first hfirst).1 ho
      refine ⟨iff_of_true ⟨_, hlong⟩ ⟨a, s, b, hsplit, hs⟩, iff_of_false ?_ ?_,
        iff_of_true hlong ⟨a, s, hfirst, ho⟩, fun e he => ?_, fun hall => absurd hall haccepted⟩
      · rintro ⟨f, hf⟩
        cases hf.symm.trans hlong
      · rintro ⟨before, t, ht, hshort⟩
        obtain ⟨f, hf⟩ := (h.ofJson_of_first ht).2 hshort
        cases hf.symm.trans hlong
      · exact .inl (Except.error.inj (he.symm.trans hlong))
    · obtain ⟨f, hf⟩ := (h.ofJson_of_first hfirst).2 ho
      refine ⟨iff_of_true ⟨_, hf⟩ ⟨a, s, b, hsplit, hs⟩, iff_of_true ⟨f, hf⟩ ⟨a, s, hfirst, ho⟩,
        iff_of_false ?_ ?_, fun e he => ?_, fun hall => absurd hall haccepted⟩
      · intro hlong
        cases hf.symm.trans hlong
      · rintro ⟨before, t, ht, hlong⟩
        cases hf.symm.trans ((h.ofJson_of_first ht).1 hlong)
      · exact .inr ⟨f, Except.error.inj (he.symm.trans hf)⟩

/-- A document with two sources and one name. -/
def listing (text : String) : List (String × Json) := [
  ("version", .int 3), ("sources", .arr [.str "a.ts", .str "b.ts"]), ("names", .arr [.str "f"]),
  ("mappings", .str text)]

theorem tabled_listing (text : String) :
    Tabled (listing text) [.str "a.ts", .str "b.ts"] [.str "f"] text where
  version := rfl
  sections := rfl
  sources := rfl
  names := rfl
  mappings := rfl
  content := ⟨[], rfl⟩

/-- An index that becomes negative is refused.  Empty segments and an empty line do no harm, and
the last segment goes back to the first source. -/
theorem ofJson_iff_accepted_negative :
    (∃ f, ofJson (.obj (listing "CAAA,CDAA")) = .error (.flaw f)) ∧
      ∃ m p, ofJson (.obj (listing "KAAAA,,HCEC;;E,CDGD")) = .ok m ∧ m.mappings.length = 4 ∧
        m.mappings[3]? = some p ∧ p.generatedLine = 3 ∧ p.generatedColumn = 3 ∧
        p.source = .str "a.ts" ∧ p.originalLine = some 6 := by
  obtain ⟨hrefused, -, -, hreported, -⟩ := ofJson_iff_accepted (tabled_listing "CAAA,CDAA")
  obtain ⟨hiff, -, -, -, haccepted⟩ := ofJson_iff_accepted (tabled_listing "KAAAA,,HCEC;;E,CDGD")
  constructor
  · obtain ⟨e, he⟩ := hrefused.2 ⟨[⟨[], "CAAA".toList⟩], ⟨"CAAA,".toList, "CDAA".toList⟩, [], rfl,
      .source (by decide) (by decide)⟩
    rcases hreported e he with rfl | ⟨f, rfl⟩
    · have hshown : ofJson (.obj (listing "CAAA,CDAA")) = .error (.flaw (.sourceRange (-1) 1)) := by
        rfl
      rw [hshown] at he
      cases he
    · exact ⟨f, he⟩
  · have hok : (ofJson (.obj (listing "KAAAA,,HCEC;;E,CDGD"))).isOk = true := rfl
    have hnone : ∀ before s after,
        segments "KAAAA,,HCEC;;E,CDGD".toList = before ++ s :: after →
          ¬Refused [.str "a.ts", .str "b.ts"] [.str "f"] before s := by
      intro before s after hsplit hs
      obtain ⟨e, he⟩ := hiff.2 ⟨before, s, after, hsplit, hs⟩
      simp [he, Except.isOk, Except.toBool] at hok
    obtain ⟨m, hm, -, -, hlength, hsays⟩ := haccepted hnone
    obtain ⟨p, hp, hp'⟩ := hsays
      [⟨[], "KAAAA".toList⟩, ⟨"KAAAA,,".toList, "HCEC".toList⟩,
        ⟨"KAAAA,,HCEC;;".toList, "E".toList⟩]
      ⟨"KAAAA,,HCEC;;E,".toList, "CDGD".toList⟩ [] rfl
    have hfour := hp'.mapped (by decide)
    refine ⟨m, p, hm, hlength, hp, hp'.line, hp'.column, ?_, hfour.2.1⟩
    exact (Option.some.inj hfour.1.2).symm

/-- A segment with four values, the second of them a power of two. -/
def farSegment (k : Nat) : Text := 'A' :: (List.replicate k 'g' ++ ['B', 'A', 'A'])

theorem decode_farSegment (k : Nat) :
    Vlq.decode (farSegment (k + 1)) = .ok [0, 2 ^ (5 * k + 4), 0, 0] := by
  have hpow : 2 * 2 ^ (5 * k + 4) = 32 ^ (k + 1) := by
    calc 2 * 2 ^ (5 * k + 4) = 2 ^ (5 * (k + 1)) := Nat.pow_succ'.symm
      _ = 32 ^ (k + 1) := Nat.pow_mul 2 5 (k + 1)
  have hfold : Vlq.fold (2 ^ (5 * k + 4)) = 32 ^ (k + 1) := by
    rw [show (2 : Int) = ((2 : Nat) : Int) from rfl, ← Int.natCast_pow, Vlq.fold,
      if_neg (Int.not_lt.2 (Int.natCast_nonneg _)), Int.natAbs_natCast, hpow]
  have hzero : (Vlq.groups (Vlq.fold 0)).map Vlq.digit = ['A'] := by
    rw [Vlq.groups_of_lt (by decide)]
    rfl
  have hencode : Vlq.encode [0, 2 ^ (5 * k + 4), 0, 0] = farSegment (k + 1) := by
    simp only [Vlq.encode_cons, hzero, hfold, Vlq.groups_pow, List.map_append, List.map_replicate,
      farSegment, List.append_assoc]
    rfl
  rw [← hencode, Vlq.decode_encode]

theorem ten_pow_le_two_pow {d k n : Nat} (hd : d ≤ 3 * k) (hn : 10 * k ≤ n) :
    10 ^ d ≤ 2 ^ n := by
  calc 10 ^ d ≤ 10 ^ (3 * k) := Nat.pow_le_pow_right (by decide) hd
    _ = (10 ^ 3) ^ k := Nat.pow_mul 10 3 k
    _ ≤ (2 ^ 10) ^ k := Nat.pow_le_pow_left (by decide) k
    _ = 2 ^ (10 * k) := (Nat.pow_mul 2 10 k).symm
    _ ≤ 2 ^ n := Nat.pow_le_pow_right (by decide) hn

/-- A document with one source and no name. -/
def farMap (k : Nat) : List (String × Json) := [
  ("version", .int 3), ("sources", .arr [.str "a"]), ("names", .arr []),
  ("mappings", .str (String.ofList (farSegment k)))]

theorem tabled_farMap (k : Nat) :
    Tabled (farMap k) [.str "a"] [] (String.ofList (farSegment k)) where
  version := rfl
  sections := rfl
  sources := rfl
  names := rfl
  mappings := rfl
  content := ⟨[], rfl⟩

theorem segments_farSegment (k : Nat) : segments (farSegment k) = [⟨[], farSegment k⟩] := by
  have hletters : ∀ c ∈ farSegment k, isBreak c = false := by
    intro c hc
    rw [farSegment, List.mem_cons, List.mem_append] at hc
    rcases hc with rfl | hc | hc
    · rfl
    · rw [List.eq_of_mem_replicate hc]
      rfl
    · have hlast : ∀ d ∈ ['B', 'A', 'A'], isBreak d = false := by simp [isBreak]
      exact hlast c hc
  have hne : farSegment k ≠ [] := List.cons_ne_nil 'A' _
  have hend : AtBreak [] := fun c hc => absurd hc (Option.not_mem_none c)
  have h := segmentsFrom_segment hne (by rfl : ([] : Text).getLast?.all isBreak) hletters hend
  rw [List.append_nil] at h
  exact h

section Far

variable (k : Nat)

theorem values_farSegment :
    (⟨[], farSegment (k + 1)⟩ : Segment).values = [0, 2 ^ (5 * k + 4), 0, 0] :=
  Segment.values_eq (decode_farSegment k)

theorem sum_farSegment : sum 1 ([] ++ [⟨[], farSegment (k + 1)⟩]) = 2 ^ (5 * k + 4) := by
  rw [sum_concat, Segment.value, values_farSegment]
  exact Int.zero_add _

/-- Such a segment leads out of a table with one source. -/
theorem not_sum_farSegment_lt (s : Json) : ¬(0 ≤ sum 1 ([] ++ [⟨[], farSegment (k + 1)⟩]) ∧
    sum 1 ([] ++ [⟨[], farSegment (k + 1)⟩]) < [s].length) := by
  have hpos : (0 : Int) < 2 ^ (5 * k + 4) := Int.pow_pos (by decide)
  rw [sum_farSegment, List.length_singleton]
  rintro ⟨-, hlt⟩
  omega

theorem refused_farSegment (s : Json) : Refused [s] [] [] ⟨[], farSegment (k + 1)⟩ := by
  refine .source ?_ (not_sum_farSegment_lt k s)
  rw [values_farSegment]
  exact List.mem_cons_self

theorem overlong_farSegment (s : Json) (h : 10 ^ Json.digitLimit ≤ 2 ^ (5 * k + 4)) :
    Overlong [s] [] [] ⟨[], farSegment (k + 1)⟩ := by
  refine .source ?_ ?_ (not_sum_farSegment_lt k s) ?_
  · rw [values_farSegment]
    exact List.mem_cons_self
  · rw [values_farSegment]
    intro hfive
    cases hfive
  · rw [sum_farSegment, Int.natAbs_pow]
    exact h

end Far

theorem firstRefused_farMap (k : Nat) : FirstRefused [.str "a"] []
    (String.ofList (farSegment (k + 1))).toList [] ⟨[], farSegment (k + 1)⟩ := by
  refine ⟨⟨[], ?_⟩, fun a t b hnil => by simp at hnil, refused_farSegment k _⟩
  rw [String.toList_ofList, segments_farSegment]
  rfl

theorem overlong_farMap {k : Nat} (h : 10 ^ Json.digitLimit ≤ 2 ^ (5 * k + 4)) :
    ofJson (.obj (farMap (k + 1))) = .error .overlong :=
  ((tabled_farMap (k + 1)).ofJson_of_first (firstRefused_farMap k)).1 (overlong_farSegment k _ h)

/-- **An index of more digits than can be shown leads to no flaw**: the document is refused for a
segment that leads out of a table, and yet no flaw is reported. -/
theorem ofJson_farMap :
    Tabled (farMap 3000) [.str "a"] [] (String.ofList (farSegment 3000)) ∧
      (∃ before s after,
        segments (String.ofList (farSegment 3000)).toList = before ++ s :: after ∧
          Refused [.str "a"] [] before s) ∧
      ofJson (.obj (farMap 3000)) = .error .overlong ∧
      ¬∃ f, ofJson (.obj (farMap 3000)) = .error (.flaw f) := by
  have hread : ofJson (.obj (farMap 3000)) = .error .overlong := overlong_farMap (k := 2999)
    (ten_pow_le_two_pow (k := 1434) (by decide) (by decide))
  obtain ⟨⟨after, hsplit⟩, -, hrefused⟩ := firstRefused_farMap 2999
  refine ⟨tabled_farMap 3000, ⟨[], _, after, hsplit, hrefused⟩, hread, ?_⟩
  rintro ⟨f, hf⟩
  rw [hread] at hf
  cases hf

end Sigil.SourceMap
