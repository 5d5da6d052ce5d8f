import Sigil.Command
import Sigil.Command.Shell
import Sigil.Script

/-!
# Proofs/Command/Plan — nothing is written before everything is settled

    plan   reads the script, converts it, reads the map, adjusts it
    carryOut                                                        writes

A plan is there only if all files it needs were read and understood (`exists_of_plan`,
`exists_of_planMap`, `exists_of_adjustedMap`).  What is wrong with one of them therefore shows while
the run only reads, and the run ends with the disk it started with.
-/

namespace Sigil

theorem Text.encode_injective : Function.Injective Text.encode := fun t u h =>
  Option.some.inj ((Text.decode?_encode t).symm.trans (h ▸ Text.decode?_encode u))

namespace Command

variable {τ : Type} [Tree τ] {parse : Parser τ} {host : Host} {d : Disk} {r : Request} {p : Plan}

/-! ## What a plan rests on -/

/-- A file is read as a text only if its bytes are one. -/
theorem exists_of_readText {path code : Text} (h : readText d path = .ok code) :
    ∃ t, d.read path = .ok (Text.encode t) ∧ code = Text.evenLines t := by
  rw [readText] at h
  split at h
  · cases h
  next bytes hread =>
  split at h
  · cases h
  next t ht =>
  exact ⟨t, (Text.encode_of_decode? ht).symm ▸ hread, (Except.ok.inj h).symm⟩

/-- A source map is adjusted only if it is read as a document that can be adjusted. -/
theorem exists_of_adjustedMap {depth : Nat} {path code : Text} {edits : List Edit} {out : Json}
    (h : (adjustedMap depth d path code edits).2 = .ok out) :
    ∃ u raw, d.read path = .ok (Text.encode u) ∧ Json.read depth (Text.evenLines u) = .ok raw ∧
      (SourceMap.adjustJson raw code edits).2 = .ok out := by
  rw [adjustedMap] at h
  split at h
  · cases h
  next t ht =>
  obtain ⟨u, hread, rfl⟩ := exists_of_readText ht
  split at h
  · cases h
  · cases h
  next raw hraw =>
  split at h
  · cases h
  next notices map hmap =>
  obtain rfl := Except.ok.inj h
  exact ⟨u, raw, hread, hraw, congrArg Prod.snd hmap⟩

/-- The part of a plan for the source map: there is none, or it is adjusted. -/
theorem exists_of_planMap {code : Text} {c : Conversion}
    (h : (r.planMap host d code c).2 = .ok p) :
    p.request = r ∧ p.conversion = c ∧
      ((r.mapSource? d = none ∧ p.map = none) ∨ ∃ source target out,
        r.mapSource? d = some source ∧ r.mapTarget? source = some target ∧
          (adjustedMap host.depth d source code c.edits).2 = .ok out ∧
            p.map = some (target, out)) := by
  rw [Request.planMap] at h
  split at h
  next hsource =>
    obtain rfl := Except.ok.inj h
    exact ⟨rfl, rfl, .inl ⟨hsource, rfl⟩⟩
  next source hsource =>
  split at h
  · cases h
  next target htarget =>
  split at h
  · cases h
  next notices out hout =>
  obtain rfl := Except.ok.inj h
  exact ⟨rfl, rfl, .inr ⟨source, target, out, hsource, htarget, congrArg Prod.snd hout, rfl⟩⟩

/-- **A plan rests on the script's text and its conversion.** -/
theorem exists_of_plan (h : (r.plan parse host d).2 = .ok p) :
    ∃ t, d.read r.input = .ok (Text.encode t) ∧
      (convert parse (Text.evenLines t) r.options).2 = .ok p.conversion ∧
      (r.planMap host d (Text.evenLines t) p.conversion).2 = .ok p := by
  rw [Request.plan] at h
  split at h
  · cases h
  next code hcode =>
  obtain ⟨t, hread, rfl⟩ := exists_of_readText hcode
  split at h
  · cases h
  next notices c hc =>
  simp only at h
  obtain ⟨-, hconversion, -⟩ := exists_of_planMap h
  rw [hconversion]
  exact ⟨t, hread, congrArg Prod.snd hc, h⟩

/-- What a file holds is read with its line ends made alike. -/
theorem readText_of_read {path t : Text} (h : d.read path = .ok (Text.encode t)) :
    readText d path = .ok (Text.evenLines t) := by
  rw [readText, h]
  simp only [Text.decode?_encode]

/-- **A conversion and what it makes of the map are a plan.** -/
theorem plan_of_planMap {t : Text} {c : Conversion} (hread : d.read r.input = .ok (Text.encode t))
    (hconvert : (convert parse (Text.evenLines t) r.options).2 = .ok c)
    (hmap : (r.planMap host d (Text.evenLines t) c).2 = .ok p) :
    (r.plan parse host d).2 = .ok p := by
  rw [Request.plan, readText_of_read hread]
  simp only
  split
  next notices e he => cases hconvert.symm.trans (congrArg Prod.snd he)
  next notices c' hc' =>
    obtain rfl := Except.ok.inj (hconvert.symm.trans (congrArg Prod.snd hc'))
    exact hmap

/-! ## Faults -/

/-- A strict caller gets no conversion of a broken script. -/
theorem convert_of_fault {code : Text} {o : ConvertOptions} {place : Place}
    (hsigil : Conversion.sigil ∈ code) (hstrict : o.strict = true)
    (hfault : (parse o.language code).fault = some place) :
    (convert parse code o).2 = .error (.broken ⟨o.filename, place⟩) := by
  rw [convert, if_neg (by simpa using hsigil), Reading.accept, hfault, hstrict]
  rfl

/-- **What makes a conversion fail**: the script or its source map is no text, the script is broken
and must not be, or the map is no document, or one with too many digits or too deep, or none that
can be adjusted for the edits of the script. -/
inductive Faulty (parse : Parser τ) (host : Host) (d : Disk) (r : Request) : Prop where
  | scriptBytes {bytes : ByteArray} (hread : d.read r.input = .ok bytes)
      (hbytes : Text.decode? bytes = none)
  | script {t : Text} {place : Place} (hread : d.read r.input = .ok (Text.encode t))
      (hsigil : Conversion.sigil ∈ Text.evenLines t) (hstrict : r.strict = true)
      (hfault : (parse r.options.language (Text.evenLines t)).fault = some place)
  | mapBytes {source : Text} {bytes : ByteArray} (hsource : r.mapSource? d = some source)
      (hread : d.read source = .ok bytes) (hbytes : Text.decode? bytes = none)
  | mapText {source u : Text} {e : Json.Malformed} (hsource : r.mapSource? d = some source)
      (hread : d.read source = .ok (Text.encode u))
      (hraw : Json.read host.depth (Text.evenLines u) = .error (.malformed e))
  | mapSize {source u : Text} {l : Json.Limit} (hsource : r.mapSource? d = some source)
      (hread : d.read source = .ok (Text.encode u))
      (hraw : Json.read host.depth (Text.evenLines u) = .error (.beyond l)) (hl : l ≠ .pairs)
  | map {t source u : Text} {c : Conversion} {raw : Json} {e : SourceMap.Error}
      (hinput : d.read r.input = .ok (Text.encode t))
      (hconvert : (convert parse (Text.evenLines t) r.options).2 = .ok c)
      (hsource : r.mapSource? d = some source) (hread : d.read source = .ok (Text.encode u))
      (hraw : Json.read host.depth (Text.evenLines u) = .ok raw)
      (hadjust : (SourceMap.adjustJson raw (Text.evenLines t) c.edits).2 = .error e)

/-- Bytes that are no text are not those of one. -/
theorem ne_encode {bytes : ByteArray} (h : Text.decode? bytes = none) (t : Text) :
    bytes ≠ Text.encode t := by
  rintro rfl
  exact absurd ((Text.decode?_encode t).symm.trans h) (Option.some_ne_none t)

/-- **Where something is faulty there is no plan.** -/
theorem Faulty.plan_ne_ok (h : Faulty parse host d r) (p : Plan) :
    (r.plan parse host d).2 ≠ .ok p := by
  intro hplan
  obtain ⟨t, hinput, hconvert, hmap⟩ := exists_of_plan hplan
  have hadjusted : ∀ source, r.mapSource? d = some source → ∃ u raw out,
      d.read source = .ok (Text.encode u) ∧ Json.read host.depth (Text.evenLines u) = .ok raw ∧
        (SourceMap.adjustJson raw (Text.evenLines t) p.conversion.edits).2 = .ok out := by
    intro source hsource
    obtain ⟨-, -, ⟨hnone, -⟩ | ⟨s, target, out, hs, -, hout, -⟩⟩ := exists_of_planMap hmap
    · exact absurd (hsource.symm.trans hnone) (Option.some_ne_none source)
    · obtain rfl := Option.some.inj (hs.symm.trans hsource)
      obtain ⟨u, raw, hread, hraw, hout⟩ := exists_of_adjustedMap hout
      exact ⟨u, raw, out, hread, hraw, hout⟩
  rcases h with ⟨hread, hbytes⟩ | ⟨hread, hsigil, hstrict, hfault⟩ | ⟨hsource, hread, hbytes⟩ |
    ⟨hsource, hread, hraw⟩ | ⟨hsource, hread, hraw, -⟩ |
    ⟨hread, hc, hsource, hreadMap, hraw, hadjust⟩
  · exact ne_encode hbytes t (Except.ok.inj (hread.symm.trans hinput))
  · obtain rfl := Text.encode_injective (Except.ok.inj (hread.symm.trans hinput))
    cases (convert_of_fault hsigil hstrict hfault).symm.trans hconvert
  · obtain ⟨u, raw, out, hu, -, -⟩ := hadjusted _ hsource
    exact ne_encode hbytes u (Except.ok.inj (hread.symm.trans hu))
  · obtain ⟨u, raw, out, hu, hok, -⟩ := hadjusted _ hsource
    obtain rfl := Text.encode_injective (Except.ok.inj (hread.symm.trans hu))
    cases hraw.symm.trans hok
  · obtain ⟨u, raw, out, hu, hok, -⟩ := hadjusted _ hsource
    obtain rfl := Text.encode_injective (Except.ok.inj (hread.symm.trans hu))
    cases hraw.symm.trans hok
  · obtain ⟨u, raw, out, hu, hok, hout⟩ := hadjusted _ hsource
    obtain rfl := Text.encode_injective (Except.ok.inj (hreadMap.symm.trans hu))
    obtain rfl := Text.encode_injective (Except.ok.inj (hread.symm.trans hinput))
    obtain rfl := Except.ok.inj (hraw.symm.trans hok)
    obtain rfl := Except.ok.inj (hc.symm.trans hconvert)
    cases hadjust.symm.trans hout

/-! ## Runs -/

/-- However a failure is explained, the status is 1. -/
theorem status_ofFailure (host : Host) (f : Failure) : (Ending.ofFailure host f).status = 1 := by
  rw [Ending.ofFailure]
  split
  · rfl
  · split <;> rfl

/-- A run without a plan leaves the disk as it is. -/
theorem run_of_error {f : Failure} (h : (r.plan parse host d).2 = .error f) :
    (r.run parse host d).disk = d ∧ (r.run parse host d).ending = .ofFailure host f := by
  rw [Request.run]
  split
  next notices f' hplan =>
    obtain rfl := Except.error.inj (h.symm.trans (congrArg Prod.snd hplan))
    exact ⟨rfl, rfl⟩
  next notices p hplan => cases h.symm.trans (congrArg Prod.snd hplan)

theorem run_eq {env : Environment} {words : List Text}
    (h : invocation? d env (host.line words) = some (.convert r)) :
    run parse host d env words = r.run parse host d := by
  rw [run, h]

/-- **A conversion that fails writes nothing.**  Whatever the host, the command line, the
environment and the disk: if the script or its source map is at fault, the status is 1 and the disk,
with every file and folder on it, is the disk before. -/
theorem run_of_faulty {env : Environment} {words : List Text}
    (h : invocation? d env (host.line words) = some (.convert r))
    (hfaulty : Faulty parse host d r) :
    (run parse host d env words).ending.status = 1 ∧ (run parse host d env words).disk = d := by
  obtain ⟨f, hf⟩ : ∃ f, (r.plan parse host d).2 = .error f := by
    cases hplan : (r.plan parse host d).2 with
    | error f => exact ⟨f, rfl⟩
    | ok p => exact absurd hplan (hfaulty.plan_ne_ok p)
  obtain ⟨hdisk, hending⟩ := run_of_error hf
  rw [run_eq h, hdisk, hending]
  exact ⟨status_ofFailure host f, rfl⟩

/-- A shell in which a conversion takes an eighth of a second, and each reading of the clock is a
second after the one before. -/
def ticking : Host := .shell 100 (.finite false 8796093022208000 (-46)) fun n =>
  .ofDecimal false (1000 + n) 0

/-- A script with the default source map beside it, which breaks off in its second line. -/
def truncated : Disk where
  here := []
  entries := [([], .folder), (["a.js".toList], .file (Text.encode "class A\x7b#x\x7d".toList)),
    (["a.js.map".toList], .file (Text.encode "\x7b\"version\": 3,\r\n]".toList))]

/-- A command line that converts the script to another file, with events. -/
def truncatedWords : List Text :=
  ["convert", "a.js", "--output", "b.js", "--telemetry-dir", "stats"].map String.toList

theorem run_of_faulty_truncated :
    (run Script.parse ticking truncated {} truncatedWords).ending.status = 1 ∧
      (run Script.parse ticking truncated {} truncatedWords).disk = truncated := by
  have hwords : invocation? truncated {} (Line.ofWords truncatedWords) = some (.convert {
      input := "a.js".toList
      output := some "b.js".toList
      telemetryDir := some "stats".toList }) := rfl
  have hsource : Request.mapSource? {
      input := "a.js".toList
      output := some "b.js".toList
      telemetryDir := some "stats".toList } truncated = some "a.js.map".toList := rfl
  -- documents have no decidable equality, but what refuses a text has
  have hrefused : (match Json.read 100 (Text.evenLines "\x7b\"version\": 3,\r\n]".toList) with
      | .error e => some e
      | .ok _ => none) = some (.malformed ⟨.noName, 2, 1, 15⟩) := by decide +kernel
  have hraw : Json.read 100 (Text.evenLines "\x7b\"version\": 3,\r\n]".toList)
      = .error (.malformed ⟨.noName, 2, 1, 15⟩) := by
    split at hrefused
    next e he => exact he.trans (congrArg Except.error (Option.some.inj hrefused))
    next => cases hrefused
  exact run_of_faulty hwords (.mapText hsource rfl hraw)

end Command

end Sigil
