import Sigil.Proofs.Command.Output
import Sigil.Proofs.Disk.Files
import Sigil.Proofs.Json.RoundTrip
import Sigil.Proofs.SourceMap.Document

/-!
# Proofs/Command/InStep — when a script and its source map stay in step

    script settled, map settled   -->   script written   -->   map written

All that can be wrong with the texts shows before anything is written (`plan_of_settled` is the
converse of `exists_settled`).  The two files are then written one after the other, and nothing is
taken back: a run leaves script and map out of step just where the script can be written and is new,
and the map cannot be written (`Torn`).
-/

namespace Sigil.Command

variable {τ : Type} [Tree τ] {parse : Parser τ} {host : Host} {d d₁ d₂ : Disk} {r : Request}
  {p : Plan} {t source target : Text} {c : Conversion} {out : Json}

/-! ## What is settled before anything is written -/

/-- The script is read as a text and converted. -/
structure Converts (parse : Parser τ) (d : Disk) (r : Request) (t : Text) (c : Conversion) :
    Prop where
  read : d.read r.input = .ok (Text.encode t)
  convert : (Sigil.convert parse (Text.evenLines t) r.options).2 = .ok c

/-- A source map is used, there is a place for it, and it is read and adjusted for the edits of the
conversion. -/
structure Adjusts (host : Host) (d : Disk) (r : Request) (t : Text) (c : Conversion)
    (source target : Text) (out : Json) : Prop where
  used : r.mapSource? d = some source
  place : r.mapTarget? source = some target
  adjust : ∃ u raw, d.read source = .ok (Text.encode u) ∧
    Json.read host.depth (Text.evenLines u) = .ok raw ∧
      (SourceMap.adjustJson raw (Text.evenLines t) c.edits).2 = .ok out

/-- A script has one conversion. -/
theorem Converts.unique {t' : Text} {c' : Conversion} (h : Converts parse d r t c)
    (h' : Converts parse d r t' c') : t' = t ∧ c' = c := by
  obtain rfl := Text.encode_injective (Except.ok.inj (h'.read.symm.trans h.read))
  exact ⟨rfl, Except.ok.inj (h'.convert.symm.trans h.convert)⟩

/-- A map is adjusted in one way. -/
theorem Adjusts.unique {target' : Text} {out' : Json} (h : Adjusts host d r t c source target out)
    (h' : Adjusts host d r t c source target' out') : target' = target ∧ out' = out := by
  obtain ⟨u, raw, hu, hraw, hout⟩ := h.adjust
  obtain ⟨u', raw', hu', hraw', hout'⟩ := h'.adjust
  obtain rfl := Text.encode_injective (Except.ok.inj (hu'.symm.trans hu))
  obtain rfl := Except.ok.inj (hraw'.symm.trans hraw)
  exact ⟨Option.some.inj (h'.place.symm.trans h.place), Except.ok.inj (hout'.symm.trans hout)⟩

/-- **A plan is settled**: it holds the conversion of the script and the adjusted map, if a map is
used. -/
theorem exists_settled (h : (r.plan parse host d).2 = .ok p) :
    p.request = r ∧ ∃ t, Converts parse d r t p.conversion ∧
      ((r.mapSource? d = none ∧ p.map = none) ∨ ∃ source target out,
        Adjusts host d r t p.conversion source target out ∧ p.map = some (target, out)) := by
  obtain ⟨t, hread, hconvert, hplan⟩ := exists_of_plan h
  obtain ⟨hrequest, -, hmap⟩ := exists_of_planMap hplan
  refine ⟨hrequest, t, ⟨hread, hconvert⟩, hmap.imp_right ?_⟩
  rintro ⟨source, target, out, hsource, htarget, hadjusted, hmap⟩
  exact ⟨source, target, out, ⟨hsource, htarget, exists_of_adjustedMap hadjusted⟩, hmap⟩

/-- **What is settled makes a plan.** -/
theorem plan_of_settled (hc : Converts parse d r t c)
    (hm : Adjusts host d r t c source target out) :
    (r.plan parse host d).2 = .ok ⟨r, c, some (target, out)⟩ := by
  obtain ⟨u, raw, hread, hraw, hadjust⟩ := hm.adjust
  have hadjusted : (adjustedMap host.depth d source (Text.evenLines t) c.edits).2 = .ok out := by
    rw [adjustedMap, readText_of_read hread]
    simp only [hraw]
    split
    next notices e he => cases hadjust.symm.trans (congrArg Prod.snd he)
    next notices map hmap => rw [Except.ok.inj (hadjust.symm.trans (congrArg Prod.snd hmap))]
  refine plan_of_planMap hc.read hc.convert ?_
  rw [Request.planMap, hm.used]
  simp only [hm.place]
  split
  next notices f hf => cases hadjusted.symm.trans (congrArg Prod.snd hf)
  next notices map hmap => rw [Except.ok.inj (hadjusted.symm.trans (congrArg Prod.snd hmap))]

/-! ## Carrying a plan out -/

/-- What a run leaves, once there is a plan, is what carrying it out leaves. -/
theorem run_of_plan (h : (r.plan parse host d).2 = .ok p) :
    (r.run parse host d).disk = (p.carryOut host d).1 ∧
      ((p.carryOut host d).2.2 ≠ none → (r.run parse host d).ending.status = 1) := by
  rw [Request.run]
  split
  next notices f hf => cases h.symm.trans (congrArg Prod.snd hf)
  next notices q hq =>
    obtain rfl := Except.ok.inj (h.symm.trans (congrArg Prod.snd hq))
    split
    next after more o hcarry =>
      rw [hcarry]
      exact ⟨rfl, fun _ => rfl⟩
    next after more hcarry =>
      rw [hcarry]
      exact ⟨rfl, fun hne => absurd rfl hne⟩

/-- The file for events in the folder that is asked for, if one is. -/
def Request.eventFile? (r : Request) : Option Text :=
  r.telemetryDir.map fun folder => Path.inside folder telemetryFile

/-- **Writing the events** leaves every other place, but for folders where nothing was. -/
theorem writeEvents_spec (h : p.writeEvents host d₁ = .ok d₂) :
    Disk.Later d₁ d₂ ∧ (∀ file, p.request.eventFile? = some file →
      d₂.read file = .ok ((d₁.fileAt (d₁.place file)).getD ByteArray.empty ++
        Text.encode ((p.events host).flatMap Telemetry.line))) ∧
      ∀ l, (∀ file, p.request.eventFile? = some file → d₁.place file ≠ l) →
        d₂.get? l = d₁.get? l ∨
          p.request.eventFile? ≠ none ∧ d₁.get? l = none ∧ d₂.get? l = some .folder := by
  rw [Plan.writeEvents] at h
  rw [Request.eventFile?]
  split at h
  next hnone =>
    obtain rfl := Except.ok.inj h
    rw [hnone, Option.map_none]
    exact ⟨(Disk.Keeps.refl [] d₁).toLater, fun file h => absurd h.symm (Option.some_ne_none file),
      fun l _ => .inl rfl⟩
  next folder hfolder =>
  rw [hfolder]
  split at h
  · cases h
  next made hmade =>
  have hlater : Disk.Later d₁ made := (Disk.keeps_of_makeFolder hmade []).toLater
  have hplace := hlater.place (Path.inside folder Request.telemetryFile)
  refine ⟨hlater.trans (Disk.later_of_change h), ?_, fun l hl => ?_⟩
  · rintro file ⟨⟩
    have hfile := Disk.fileAt_of_change h
    rw [Disk.fileAt_of_makeFolder hmade, hplace] at hfile
    refine Disk.read_of_later (Disk.change_eq_ok_iff.1 h).1.1 (Disk.later_of_change h) ?_
    rw [hplace]
    exact hfile
  · rw [Disk.get?_of_change h (hplace ▸ hl _ rfl)]
    exact (Disk.get?_of_makeFolder hmade l).imp_right fun hnew => ⟨Option.some_ne_none _, hnew⟩

/-! ## Runs with a source map -/

/-- **How a run with a source map goes.** -/
inductive Course (parse : Parser τ) (host : Host) (d : Disk) (r : Request) (source : Text)
    (x : Run) : Prop where
  /-- Nothing is written. -/
  | untouched (hdisk : x.disk = d)
  /-- The script is written, and the map cannot be. -/
  | torn {t : Text} {c : Conversion} {target : Text} {out : Json} (hc : Converts parse d r t c)
    (hm : Adjusts host d r t c source target out)
    (hscript : d.write r.target (Text.encode c.code) = .ok x.disk)
    (hmap : ¬x.disk.Writable target) (hstatus : x.ending.status = 1)
  /-- Script and map are written, and after them nothing but the events. -/
  | renewed {t : Text} {c : Conversion} {target : Text} {out : Json} {d₁ d₂ : Disk}
    (hc : Converts parse d r t c) (hm : Adjusts host d r t c source target out)
    (hscript : d.write r.target (Text.encode c.code) = .ok d₁)
    (hmap : d₁.write target (Text.encode out.write.toList) = .ok d₂)
    (hlater : Disk.Later d₂ x.disk)
    (hfiles : ∀ l, (∀ file, r.eventFile? = some file → d.place file ≠ l) →
      x.disk.fileAt l = d₂.fileAt l)

/-- Every run with a source map goes one of these ways. -/
theorem course_run (hsource : r.mapSource? d = some source) :
    Course parse host d r source (r.run parse host d) := by
  cases hplan : (r.plan parse host d).2 with
  | error f => exact .untouched (run_of_error hplan).1
  | ok p =>
    obtain ⟨hrequest, t, hc, ⟨hnone, -⟩ | ⟨source', target, out, hm, hmap⟩⟩ := exists_settled hplan
    · exact absurd (hsource.symm.trans hnone) (Option.some_ne_none source)
    obtain rfl := Option.some.inj (hsource.symm.trans hm.used)
    obtain ⟨hdisk, hstatus⟩ := run_of_plan hplan
    cases hscript : d.write r.target (Text.encode p.conversion.code) with
    | error o =>
      refine .untouched (hdisk.trans ?_)
      simp only [Plan.carryOut, Plan.writeScript, hrequest, hscript]
    | ok d₁ =>
    cases hwrite : d₁.write target (Text.encode out.write.toList) with
    | error o =>
      have hcarry : p.carryOut host d = (d₁, [], some o) := by
        simp only [Plan.carryOut, Plan.writeScript, Plan.writeMap, hrequest, hmap, hscript, hwrite]
      rw [hcarry] at hdisk hstatus
      exact .torn hc hm (hdisk ▸ hscript) (hdisk ▸ Disk.exists_error_iff.1 ⟨o, hwrite⟩)
        (hstatus (Option.some_ne_none o))
    | ok d₂ =>
    have hlater : Disk.Later d d₂ :=
      (Disk.later_of_change hscript).trans (Disk.later_of_change hwrite)
    cases hevents : p.writeEvents host d₂ with
    | error o =>
      have hcarry : p.carryOut host d = (d₂, p.notices, some o) := by
        simp only [Plan.carryOut, Plan.writeScript, Plan.writeMap, hrequest, hmap, hscript, hwrite,
          hevents]
      rw [hcarry] at hdisk
      obtain rfl : d₂ = (r.run parse host d).disk := hdisk.symm
      exact .renewed hc hm hscript hwrite (Disk.Keeps.refl [] _).toLater fun l _ => rfl
    | ok d₃ =>
      have hcarry : p.carryOut host d = (d₃, p.notices, none) := by
        simp only [Plan.carryOut, Plan.writeScript, Plan.writeMap, hrequest, hmap, hscript, hwrite,
          hevents]
      rw [hcarry] at hdisk
      obtain ⟨hafter, -, hrest⟩ := writeEvents_spec hevents
      refine .renewed hc hm hscript hwrite (hdisk ▸ hafter) fun l hl => ?_
      rw [hrequest] at hrest
      rw [hdisk]
      rcases hrest l fun file hfile => hlater.place file ▸ hl file hfile with
        hsame | ⟨-, hnone, hfolder⟩
      · exact Disk.fileAt_congr hsame
      · rw [Disk.fileAt, Disk.fileAt, hnone, hfolder]

/-- **Script and map are in step** on a later disk: both hold the new contents, or neither file has
changed. -/
inductive InStep (parse : Parser τ) (host : Host) (d : Disk) (r : Request) (source : Text)
    (after : Disk) : Prop where
  /-- Both hold the new contents. -/
  | renewed {t : Text} {c : Conversion} {target : Text} {out : Json} (hc : Converts parse d r t c)
    (hm : Adjusts host d r t c source target out)
    (hscript : after.read r.target = .ok (Text.encode c.code))
    (hmap : after.read target = .ok (Text.encode out.write.toList))
  /-- Neither file has changed. -/
  | kept (hscript : after.fileAt (d.place r.target) = d.fileAt (d.place r.target))
    (hmap : ∀ target, r.mapTarget? source = some target →
      after.fileAt (d.place target) = d.fileAt (d.place target))

/-- **What tears script and map apart**: everything is settled, the script can be written and is
new, and the map cannot be written. -/
structure Torn (parse : Parser τ) (host : Host) (d : Disk) (r : Request) (t : Text)
    (c : Conversion) (source target : Text) (out : Json) : Prop where
  converts : Converts parse d r t c
  adjusts : Adjusts host d r t c source target out
  script : d.Writable r.target
  map : ¬d.Writable target
  new : d.fileAt (d.place r.target) ≠ some (Text.encode c.code)

/-- The script, the map and the events go to different places. -/
def Request.Apart (r : Request) (d : Disk) : Prop :=
  ((r.target :: r.besides d).map d.place).Nodup

theorem Request.Apart.ne_of_mem (h : r.Apart d) {path : Text} (hpath : path ∈ r.besides d) :
    d.place r.target ≠ d.place path := by
  rw [Request.Apart, List.map_cons, List.nodup_cons] at h
  exact fun heq => h.1 (heq ▸ List.mem_map_of_mem hpath)

theorem Adjusts.mem_besides (hm : Adjusts host d r t c source target out) :
    target ∈ r.besides d := by
  simp [Request.besides, hm.used, hm.place]

/-- The map and the events, in this order. -/
theorem Request.besides_eq (r : Request) (d : Disk) :
    r.besides d = ((r.mapSource? d).bind r.mapTarget?).toList ++ r.eventFile?.toList :=
  rfl

theorem Request.mem_besides_of_eventFile? {file : Text} (h : r.eventFile? = some file) :
    file ∈ r.besides d := by
  rw [Request.besides_eq, h]
  exact List.mem_append_right _ List.mem_cons_self

theorem Request.Apart.events_ne (h : r.Apart d) (hm : Adjusts host d r t c source target out)
    {file : Text} (hfile : r.eventFile? = some file) : d.place file ≠ d.place target := by
  have hbesides : r.besides d = [target, file] := by
    rw [Request.besides_eq, hfile, hm.used, Option.bind_some, hm.place]
    rfl
  rw [Request.Apart, hbesides] at h
  intro heq
  simp [heq] at h

/-- Where script and map are torn apart, the script is written and the map is not. -/
theorem Torn.run_eq (h : Torn parse host d r t c source target out)
    (hapart : d.place r.target ≠ d.place target) :
    d.write r.target (Text.encode c.code) = .ok (r.run parse host d).disk ∧
      ¬(r.run parse host d).disk.Writable target := by
  obtain ⟨d₁, hscript⟩ : ∃ d₁, d.write r.target (Text.encode c.code) = .ok d₁ :=
    Disk.exists_change_iff.2 h.script
  have hmap : ¬d₁.Writable target := fun hw =>
    h.map ((Disk.writable_of_change hscript hapart).1 hw)
  obtain ⟨o, hwrite⟩ : ∃ o, d₁.write target (Text.encode out.write.toList) = .error o :=
    Disk.exists_error_iff.2 hmap
  have hdisk := (run_of_plan (plan_of_settled h.converts h.adjusts)).1
  have hcarry : Plan.carryOut host ⟨r, c, some (target, out)⟩ d = (d₁, [], some o) := by
    simp only [Plan.carryOut, Plan.writeScript, Plan.writeMap, hscript, hwrite]
  rw [hcarry] at hdisk
  rw [hdisk]
  exact ⟨hscript, hmap⟩

/-- **Torn apart is out of step.** -/
theorem Torn.not_inStep (h : Torn parse host d r t c source target out)
    (hapart : d.place r.target ≠ d.place target) :
    ¬InStep parse host d r source (r.run parse host d).disk := by
  obtain ⟨hscript, hmap⟩ := h.run_eq hapart
  rintro (⟨hc, hm, -, hread⟩ | ⟨hkept, -⟩)
  · obtain rfl := Option.some.inj (h.adjusts.place.symm.trans hm.place)
    obtain ⟨hl, hfile⟩ := Disk.read_eq_ok_iff.1 hread
    refine hmap ⟨hl, ?_⟩
    rw [Disk.get?_of_fileAt hfile]
    exact fun hfolder => nomatch hfolder
  · exact h.new (hkept ▸ Disk.fileAt_of_change hscript)

/-- **Script and map stay in step** unless they are torn apart. -/
theorem Course.inStep {x : Run} (h : Course parse host d r source x) (hapart : r.Apart d)
    (htorn : ∀ t c target out, ¬Torn parse host d r t c source target out) :
    InStep parse host d r source x.disk := by
  cases h with
  | untouched hdisk =>
    rw [hdisk]
    exact .kept rfl fun _ _ => rfl
  | @torn t c target out hc hm hscript hmap hstatus =>
    have hne := hapart.ne_of_mem hm.mem_besides
    have hwritable := Disk.writable_of_change hscript hne
    have hold : d.fileAt (d.place r.target) = some (Text.encode c.code) := by
      by_contra hnew
      exact htorn t c target out
        ⟨hc, hm, (Disk.change_eq_ok_iff.1 hscript).1, fun h => hmap (hwritable.2 h), hnew⟩
    refine .kept (hold ▸ Disk.fileAt_of_change hscript) fun target' htarget' => ?_
    obtain rfl := Option.some.inj (hm.place.symm.trans htarget')
    exact Disk.fileAt_congr (Disk.get?_of_change hscript hne)
  | @renewed t c target out d₁ d₂ hc hm hscript hmap hlater hfiles =>
    have hne := hapart.ne_of_mem hm.mem_besides
    have hplace := (Disk.later_of_change hscript).place target
    refine .renewed hc hm ?_ ?_
    · refine Disk.read_of_later (Disk.change_eq_ok_iff.1 hscript).1.1
        (((Disk.later_of_change hscript).trans (Disk.later_of_change hmap)).trans hlater) ?_
      rw [hfiles _ fun file hfile =>
          (hapart.ne_of_mem (Request.mem_besides_of_eventFile? hfile)).symm,
        Disk.fileAt_congr (Disk.get?_of_change hmap (hplace ▸ hne.symm))]
      exact Disk.fileAt_of_change hscript
    · refine Disk.read_of_later (Disk.change_eq_ok_iff.1 hmap).1.1
        ((Disk.later_of_change hmap).trans hlater) ?_
      rw [hplace, hfiles _ fun file hfile => hapart.events_ne hm hfile, ← hplace]
      exact Disk.fileAt_of_change hmap

/-- **When script and map stay in step.**  Every run with a source map writes nothing, or the script
alone, or script and map and then the events.  Where these go to different places, script and map
are in step afterwards if and only if they were not torn apart: that the map cannot be written is
found out only after the script is written, and the script is not put back. -/
theorem inStep_iff {env : Environment} {words : List Text}
    (h : invocation? d env (host.line words) = some (.convert r))
    (hsource : r.mapSource? d = some source) :
    Course parse host d r source (run parse host d env words) ∧
      (r.Apart d → (InStep parse host d r source (run parse host d env words).disk ↔
        ∀ t c target out, ¬Torn parse host d r t c source target out)) := by
  rw [run_eq h]
  have hcourse : Course parse host d r source (r.run parse host d) := course_run hsource
  refine ⟨hcourse, fun hapart => ⟨fun hstep t c target out htorn => ?_, hcourse.inStep hapart⟩⟩
  exact htorn.not_inStep (hapart.ne_of_mem htorn.adjusts.mem_besides) hstep

/-- A script and its source map in a folder. -/
def beside (t u : Text) : Disk where
  here := []
  entries := [([], .folder), (["a.js".toList], .file (Text.encode t)),
    (["a.js.map".toList], .file (Text.encode u))]

/-- A command line that converts the script in place and puts its map under a path, with events. -/
def mapToWords (path : Text) : List Text :=
  ["convert".toList, "a.js".toList, "--map-output".toList, path, "--telemetry-dir".toList,
    "stats".toList]

/-- What the command line asks for. -/
def mapTo (path : Text) : Request where
  input := "a.js".toList
  mapOutput := some path
  telemetryDir := some "stats".toList

theorem invocation_beside (t u path : Text) :
    invocation? (beside t u) {} (Line.ofWords (mapToWords path))
      = some (.convert (mapTo path)) := rfl

/-- The map beside the script is used. -/
theorem mapSource?_beside (t u path : Text) :
    (mapTo path).mapSource? (beside t u) = some "a.js.map".toList := rfl

/-- A source map with the mappings given. -/
def mapDocument (mappings : String) : Json :=
  .obj [("version", .int 3), ("sources", .arr [.str "a.ts"]), ("names", .arr []),
    ("mappings", .str mappings)]

/-- A source map is written as a text that is read again. -/
theorem read_mapDocument (mappings : String) :
    Json.read 100 (Text.evenLines (mapDocument mappings).write.toList)
      = .ok (mapDocument mappings) := by
  have hlegible : (mapDocument mappings).Legible 100 := by
    have hkeys : ["version", "sources", "names", "mappings"].Nodup := by decide
    refine .obj ?_ hkeys
    simp only [List.forall_mem_cons]
    refine ⟨.int rfl, .arr (List.forall_mem_singleton.2 (.str _)),
      .arr fun _ hx => absurd hx List.not_mem_nil, .str _, fun _ hkv => absurd hkv List.not_mem_nil⟩
  rw [Text.evenLines_eq_self fun hreturn => absurd (Json.oneLine_write _ _ hreturn) (by decide)]
  exact Json.read_write hlegible

/-- The conversion of `Tree.nested`. -/
def nestedInPlace : Conversion where
  code := "class\x7b$a='$a' in class\x7b$b\x7d\x7d".toList
  classCount := 2
  fieldCount := 2
  editCount := 3
  edits := [⟨6, 8, "$a".toList⟩, ⟨9, 11, "'$a'".toList⟩, ⟨21, 23, "$b".toList⟩]

/-- A folder with the script of `Tree.nested`, and a map that has something behind both of its
edits. -/
def mapped : Disk := beside Conversion.nestedText (mapDocument "AAAA,qBAAqB").write.toList

theorem converts_mapped (path : Text) :
    Converts (fun _ _ => ⟨Tree.nested, none⟩) mapped (mapTo path) Conversion.nestedText
      nestedInPlace :=
  ⟨rfl, convert_of_ofTree ⟨rfl, fun _ => rfl⟩ (Conversion.ofTree_nested (by decide) rfl)⟩

/-- A map whose second mapping is for a column. -/
def mappedTo (column : Int) : SourceMap where
  mappings := [⟨1, 0, .str "a.ts", some 1, some 0, .null⟩,
    ⟨1, column, .str "a.ts", some 1, some 21, .null⟩]
  sources := [.str "a.ts"]
  sourcesContent := [.null]

/-- The second mapping moves with its text. -/
theorem adjusts_mapped (path : Text) :
    Adjusts ticking mapped (mapTo path) Conversion.nestedText nestedInPlace "a.js.map".toList path
      (mapDocument "AAAA,uBAAqB") := by
  have hread : SourceMap.ofJson (mapDocument "AAAA,qBAAqB") = .ok (mappedTo 21) := rfl
  have hadjust : (mappedTo 21).adjust Conversion.nestedText nestedInPlace.edits = mappedTo 23 := by
    have hsorted : Edit.sorted nestedInPlace.edits = nestedInPlace.edits :=
      Edit.sorted_of_perm .rfl (by decide)
    have hshifts : Shift.byLine Conversion.nestedText nestedInPlace.edits
        = [(0, [⟨6, 2, 2⟩, ⟨9, 2, 4⟩, ⟨21, 2, 2⟩])] := by
      rw [Shift.byLine, hsorted]
      rfl
    rw [SourceMap.adjust, hshifts]
    rfl
  have hwrite : (mappedTo 23).toJson = .ok (mapDocument "AAAA,uBAAqB") := by
    simp only [mappedTo, SourceMap.toJson, SourceMap.encodeMappings]
    rw [mergeSort_of_perm SourceMap.before_trans SourceMap.before_total .rfl (by decide)]
    with_unfolding_all rfl
  refine ⟨mapSource?_beside _ _ _, rfl, _, _, rfl, read_mapDocument _, ?_⟩
  exact congrArg Prod.snd (SourceMap.adjustJson_of_ok hread _ (List.cons_ne_nil _ _)
    ((congrArg SourceMap.toJson hadjust).trans hwrite))

/-- Where the paths lead. -/
theorem place_beside (t u : Text) :
    (beside t u).place "a.js".toList = ["a.js".toList] ∧
      (beside t u).place "b.map".toList = ["b.map".toList] ∧
      (beside t u).place "out/b.map".toList = ["b.map".toList, "out".toList] ∧
      (beside t u).place "stats/telemetry.jsonl".toList
        = ["telemetry.jsonl".toList, "stats".toList] :=
  ⟨rfl, rfl, rfl, rfl⟩

theorem eventFile?_mapTo (path : Text) :
    (mapTo path).eventFile? = some "stats/telemetry.jsonl".toList := rfl

theorem besides_mapTo (t u path : Text) :
    (mapTo path).besides (beside t u) = [path, "stats/telemetry.jsonl".toList] := by
  rw [Request.besides_eq, mapSource?_beside, eventFile?_mapTo]
  rfl

/-- With the map in the folder, everything goes elsewhere. -/
theorem apart_mapTo (t u : Text) : (mapTo "b.map".toList).Apart (beside t u) := by
  obtain ⟨hscript, hmap, -, hevents⟩ := place_beside t u
  rw [Request.Apart, besides_mapTo]
  change [(beside t u).place "a.js".toList, (beside t u).place "b.map".toList,
    (beside t u).place "stats/telemetry.jsonl".toList].Nodup
  rw [hscript, hmap, hevents]
  decide

/-- What can be written. -/
theorem writable_beside (t u : Text) :
    (beside t u).Writable "a.js".toList ∧ (beside t u).Writable "b.map".toList ∧
      ¬(beside t u).Writable "out/b.map".toList := by
  have hscript : (beside t u).locate "a.js".toList = .ok ["a.js".toList] := rfl
  have hmap : (beside t u).locate "b.map".toList = .ok ["b.map".toList] := rfl
  have hout : (beside t u).locate "out/b.map".toList = .error .missing := rfl
  obtain ⟨hplace, hplaceMap, -, -⟩ := place_beside t u
  refine ⟨⟨hplace ▸ hscript, ?_⟩, ⟨hplaceMap ▸ hmap, ?_⟩, fun h => ?_⟩
  · rw [hplace]
    intro h
    cases h
  · rw [hplaceMap]
    intro h
    cases h
  · cases hout.symm.trans h.1

/-- In a folder that is there, the map can be written, so script and map stay in step. -/
theorem inStep_iff_mapped :
    InStep (fun _ _ => ⟨Tree.nested, none⟩) ticking mapped (mapTo "b.map".toList) "a.js.map".toList
      (run (fun _ _ => ⟨Tree.nested, none⟩) ticking mapped {}
        (mapToWords "b.map".toList)).disk := by
  refine ((inStep_iff (invocation_beside _ _ _) (mapSource?_beside _ _ _)).2
    (apart_mapTo _ _)).2 ?_
  rintro t c target out ⟨-, hm, -, hunwritable, -⟩
  obtain rfl := Option.some.inj hm.place
  exact hunwritable (writable_beside _ _).2.1

/-- In a folder that is not there, the map cannot be written: the run breaks off with the script
converted and its map as it was. -/
theorem run_torn :
    invocation? mapped {} (ticking.line (mapToWords "out/b.map".toList))
        = some (.convert (mapTo "out/b.map".toList)) ∧
      (mapTo "out/b.map".toList).mapSource? mapped = some "a.js.map".toList ∧
      (run (fun _ _ => ⟨Tree.nested, none⟩) ticking mapped {}
        (mapToWords "out/b.map".toList)).disk.read "a.js".toList
          = .ok (Text.encode nestedInPlace.code) ∧
      ¬InStep (fun _ _ => ⟨Tree.nested, none⟩) ticking mapped (mapTo "out/b.map".toList)
        "a.js.map".toList (run (fun _ _ => ⟨Tree.nested, none⟩) ticking mapped {}
          (mapToWords "out/b.map".toList)).disk := by
  have hwords : invocation? mapped {} (ticking.line (mapToWords "out/b.map".toList))
      = some (.convert (mapTo "out/b.map".toList)) := invocation_beside _ _ _
  obtain ⟨hscript, -, hout, -⟩ := place_beside Conversion.nestedText
    (mapDocument "AAAA,qBAAqB").write.toList
  obtain ⟨hwritable, -, hunwritable⟩ := writable_beside Conversion.nestedText
    (mapDocument "AAAA,qBAAqB").write.toList
  have hold : mapped.fileAt ["a.js".toList] = some (Text.encode Conversion.nestedText) := rfl
  have hnew : Conversion.nestedText ≠ nestedInPlace.code := by decide
  have htorn : Torn (fun _ _ => ⟨Tree.nested, none⟩) ticking mapped (mapTo "out/b.map".toList)
      Conversion.nestedText nestedInPlace "a.js.map".toList "out/b.map".toList
      (mapDocument "AAAA,uBAAqB") := by
    refine ⟨converts_mapped _, adjusts_mapped _, hwritable, hunwritable, ?_⟩
    change mapped.fileAt (mapped.place "a.js".toList) ≠ _
    rw [mapped, hscript, ← mapped, hold]
    exact fun h => hnew (Text.encode_injective (Option.some.inj h))
  have hapart : mapped.place "a.js".toList ≠ mapped.place "out/b.map".toList := by
    rw [mapped, hscript, hout]
    decide
  refine ⟨hwords, mapSource?_beside _ _ _, ?_⟩
  rw [run_eq hwords]
  exact ⟨Disk.read_of_write (htorn.run_eq hapart).1, htorn.not_inStep hapart⟩

end Sigil.Command
