import Sigil.Proofs.Command.Plan
import Sigil.Proofs.Convert.LineEnds
import Sigil.Proofs.Disk.Places

/-!
# Proofs/Command/Output — what a conversion leaves in the file it writes

    script --read--> text --even--> code --edits--> new code --written--> target

A run that ends well has carried its plan out (`exists_carryOut`): the script is written first, and
what is written after it leaves every other place (`keeps_of_carryOut`).  So the target holds the
edited code, and of the script all is kept but the line ends that are no line feeds.
-/

namespace Sigil.Command

variable {τ : Type} [Tree τ] {parse : Parser τ} {host : Host} {d d₁ d₂ : Disk} {r : Request}
  {p : Plan} {l : Location}

/-! ## Runs that end well -/

/-- **A run that ends well has carried out its plan.** -/
theorem exists_carryOut (h : (r.run parse host d).ending.status = 0) :
    ∃ p notices, (r.plan parse host d).2 = .ok p ∧
      p.carryOut host d = ((r.run parse host d).disk, notices, none) := by
  rw [Request.run] at h ⊢
  split at h
  next notices f hplan =>
    rw [status_ofFailure] at h
    cases h
  next notices p hplan =>
    split at h
    · cases h
    next after more hcarry => exact ⟨p, more, congrArg Prod.snd hplan, by simp only [hcarry]⟩

/-- Once its plan is carried out, a run ends with the summary. -/
theorem ending_of_carryOut (hplan : (r.plan parse host d).2 = .ok p)
    (hcarry : (p.carryOut host d).2.2 = none) :
    (r.run parse host d).ending = .ofRows host (p.summary host) := by
  rw [Request.run]
  split
  next notices f hf =>
    rw [hf] at hplan
    cases hplan
  next notices q hq =>
  rw [hq] at hplan
  obtain rfl := Except.ok.inj hplan
  split
  next after more o ho =>
    rw [ho] at hcarry
    cases hcarry
  · rfl

/-- A plan is carried out in three steps. -/
theorem carryOut_eq_none {after : Disk} {notices : List Notice}
    (h : p.carryOut host d = (after, notices, none)) :
    ∃ d₁ d₂, p.writeScript d = .ok d₁ ∧ p.writeMap d₁ = .ok d₂ ∧
      p.writeEvents host d₂ = .ok after := by
  rw [Plan.carryOut] at h
  split at h
  · cases h
  next d₁ hscript =>
  split at h
  · cases h
  next d₂ hmap =>
  split at h
  · cases h
  next d₃ hevents =>
  cases h
  exact ⟨d₁, d₂, hscript, hmap, hevents⟩

/-! ## What is written besides the script -/

/-- What a conversion writes besides the script: the source map and the file for events. -/
def Request.besides (r : Request) (d : Disk) : List Text :=
  ((r.mapSource? d).bind r.mapTarget?).toList ++
    (r.telemetryDir.map fun folder => Path.inside folder telemetryFile).toList

theorem keeps_of_writeMap (h : p.writeMap d₁ = .ok d₂)
    (hl : ∀ target map, p.map = some (target, map) → d₁.place target ≠ l) :
    Disk.Keeps l d₁ d₂ := by
  rw [Plan.writeMap] at h
  split at h
  · obtain rfl := Except.ok.inj h
    exact .refl l d₁
  next target map hmap => exact Disk.keeps_of_change h (hl target map hmap)

theorem keeps_of_writeEvents (h : p.writeEvents host d₁ = .ok d₂)
    (hl : ∀ folder, p.request.telemetryDir = some folder →
      d₁.place (Path.inside folder Request.telemetryFile) ≠ l) :
    Disk.Keeps l d₁ d₂ := by
  rw [Plan.writeEvents] at h
  split at h
  · obtain rfl := Except.ok.inj h
    exact .refl l d₁
  next folder hfolder =>
  split at h
  · cases h
  next made hmade =>
  have hkeeps := Disk.keeps_of_makeFolder hmade l
  refine hkeeps.trans (Disk.keeps_of_change h ?_)
  rw [hkeeps.place]
  exact hl folder hfolder

/-- The map of a plan is among what is written besides the script. -/
theorem mem_besides_of_plan (h : (r.plan parse host d).2 = .ok p) {target : Text} {map : Json}
    (hmap : p.map = some (target, map)) : target ∈ r.besides d := by
  obtain ⟨t, -, -, hplan⟩ := exists_of_plan h
  obtain ⟨-, -, ⟨-, hnone⟩ | ⟨source, target', out, hsource, htarget, -, hsome⟩⟩ :=
    exists_of_planMap hplan
  · exact absurd (hmap.symm.trans hnone) (Option.some_ne_none _)
  · cases hmap.symm.trans hsome
    simp [Request.besides, hsource, htarget]

/-- **Once the script is written**, only the places of the map and of the events change. -/
theorem keeps_of_carryOut {after : Disk} {notices : List Notice}
    (hplan : (r.plan parse host d).2 = .ok p) (h : p.carryOut host d = (after, notices, none)) :
    ∃ d₁, d.write r.target (Text.encode p.conversion.code) = .ok d₁ ∧
      ∀ l, (∀ path ∈ r.besides d, d.place path ≠ l) → Disk.Keeps l d₁ after := by
  obtain ⟨d₁, d₂, hscript, hmap, hevents⟩ := carryOut_eq_none h
  obtain ⟨t, -, -, hplanMap⟩ := exists_of_plan hplan
  obtain ⟨hrequest, -, -⟩ := exists_of_planMap hplanMap
  have hscript : d.write r.target (Text.encode p.conversion.code) = .ok d₁ := hrequest ▸ hscript
  refine ⟨d₁, hscript, fun l hl => ?_⟩
  have hlater : Disk.Later d d₁ := Disk.later_of_change hscript
  have hkeeps : Disk.Keeps l d₁ d₂ := keeps_of_writeMap hmap fun target map htarget =>
    hlater.place target ▸ hl target (mem_besides_of_plan hplan htarget)
  refine hkeeps.trans (keeps_of_writeEvents hevents fun folder hfolder => ?_)
  rw [hkeeps.place, hlater.place]
  refine hl _ ?_
  rw [hrequest] at hfolder
  simp [Request.besides, hfolder]

/-! ## The target -/

/-- **The target holds the new code** after a run that ends well, unless something else is written
there. -/
theorem read_target (hdone : (r.run parse host d).ending.status = 0)
    (hplan : (r.plan parse host d).2 = .ok p)
    (hbesides : ∀ path ∈ r.besides d, d.place path ≠ d.place r.target) :
    (r.run parse host d).disk.read r.target = .ok (Text.encode p.conversion.code) := by
  obtain ⟨q, notices, hq, hcarry⟩ := exists_carryOut hdone
  obtain rfl := Except.ok.inj (hplan.symm.trans hq)
  obtain ⟨d₁, hwrite, hkeeps⟩ := keeps_of_carryOut hplan hcarry
  have hplace : d₁.place r.target = d.place r.target :=
    (Disk.later_of_change hwrite).place r.target
  have hkept : Disk.Keeps (d₁.place r.target) d₁ (r.run parse host d).disk :=
    hplace ▸ hkeeps _ hbesides
  exact hkept.read (Disk.read_of_write hwrite)

/-- **What a run that ends well writes**: the script, its line ends made alike, with the edits of
the conversion in it.  Only the places of the map and of the events change after that, so the target
goes on holding it unless it is one of them.  Where all line ends are line feeds, nothing but the
edits is new; a script with other line ends does not keep them, not even without edits. -/
theorem read_target_of_done {env : Environment} {words : List Text} {t : Text}
    (h : invocation? d env (host.line words) = some (.convert r))
    (hread : d.read r.input = .ok (Text.encode t))
    (hdone : (run parse host d env words).ending.status = 0) :
    ∃ c d₁, (convert parse (Text.evenLines t) r.options).2 = .ok c ∧
      Edit.patch (Text.evenLines t) c.edits = .ok c.code ∧
      d.write r.target (Text.encode c.code) = .ok d₁ ∧
      (∀ l, (∀ path ∈ r.besides d, d.place path ≠ l) →
        Disk.Keeps l d₁ (run parse host d env words).disk) ∧
      ((∀ path ∈ r.besides d, d.place path ≠ d.place r.target) →
        (run parse host d env words).disk.read r.target = .ok (Text.encode c.code)) ∧
      ('\r' ∉ t → Edit.patch t c.edits = .ok c.code) ∧
      (Text.KeepsLineEnds t c.code ↔ '\r' ∉ t) ∧
      (c.edits = [] → (Text.encode c.code = Text.encode t ↔ '\r' ∉ t)) := by
  rw [run_eq h] at hdone ⊢
  obtain ⟨p, notices, hplan, hcarry⟩ := exists_carryOut hdone
  obtain ⟨u, hu, hconvert, -⟩ := exists_of_plan hplan
  obtain rfl := Text.encode_injective (Except.ok.inj (hread.symm.trans hu))
  obtain ⟨d₁, hwrite, hkeeps⟩ := keeps_of_carryOut hplan hcarry
  have hpatch := (Conversion.patch_of_convert hconvert).1
  have hsame : '\r' ∉ t → Edit.patch t p.conversion.edits = .ok p.conversion.code := fun ht =>
    Text.evenLines_eq_self ht ▸ hpatch
  refine ⟨p.conversion, d₁, hconvert, hpatch, hwrite, hkeeps, read_target hdone hplan, hsame,
    Conversion.keepsLineEnds_iff hconvert, fun hedits => ?_⟩
  rw [hedits, Edit.patch_nil] at hpatch
  rw [← Except.ok.inj hpatch, Text.encode_injective.eq_iff]
  exact Text.evenLines_eq_self_iff

/-- A folder with nothing but a script in it. -/
def alone (t : Text) : Disk where
  here := []
  entries := [([], .folder), (["a.js".toList], .file (Text.encode t))]

/-- A command line that converts the script in place, with events. -/
def inPlaceWords : List Text :=
  ["convert", "a.js", "--telemetry-dir", "stats"].map String.toList

/-- What the command line asks for. -/
def inPlace : Request where
  input := "a.js".toList
  telemetryDir := some "stats".toList

theorem invocation_alone (t : Text) :
    invocation? (alone t) {} (Line.ofWords inPlaceWords) = some (.convert inPlace) := rfl

/-- The script can be written, and so can the events. -/
theorem carryOut_alone (t : Text) (c : Conversion) :
    (Plan.carryOut ticking ⟨inPlace, c, none⟩ (alone t)).2.2 = none := by rfl

/-- The events go elsewhere. -/
theorem place_ne_alone (t : Text) : ∀ path ∈ inPlace.besides (alone t),
    (alone t).place path ≠ (alone t).place inPlace.target := by
  have hbesides : inPlace.besides (alone t) = ["stats/telemetry.jsonl".toList] := rfl
  have hevents : (alone t).place "stats/telemetry.jsonl".toList
      = ["telemetry.jsonl".toList, "stats".toList] := rfl
  have htarget : (alone t).place inPlace.target = ["a.js".toList] := rfl
  rw [hbesides, htarget]
  rintro path hpath
  obtain rfl := List.mem_singleton.1 hpath
  rw [hevents]
  decide

theorem tenths_ticking : ticking.elapsed.tenths = "125.0" := rfl

/-- A script alone in its folder is converted if the summary can be shown. -/
theorem status_alone {t : Text} {c : Conversion}
    (hplan : (inPlace.plan parse ticking (alone t)).2 = .ok ⟨inPlace, c, none⟩)
    (hrows : (Ending.ofRows ticking (Plan.summary ticking ⟨inPlace, c, none⟩)).status = 0) :
    (run parse ticking (alone t) {} inPlaceWords).ending.status = 0 := by
  rw [run_eq (invocation_alone t), ending_of_carryOut hplan (carryOut_alone t c)]
  exact hrows

/-- The text of `Tree.nested` in a line that ends with a carriage return and a line feed. -/
def nestedLine : Text := Conversion.nestedText ++ ['\r', '\n']

/-- The conversion of this text. -/
def nestedConversion : Conversion where
  code := "class\x7b$a='$a' in class\x7b$b\x7d\x7d\n".toList
  classCount := 2
  fieldCount := 2
  editCount := 3
  edits := [⟨6, 8, "$a".toList⟩, ⟨9, 11, "'$a'".toList⟩, ⟨21, 23, "$b".toList⟩]

theorem read_target_of_done_nested :
    (run (fun _ _ => ⟨Tree.nested, none⟩) ticking (alone nestedLine) {} inPlaceWords).disk.read
        "a.js".toList = .ok (Text.encode nestedConversion.code) ∧
      ¬Text.KeepsLineEnds nestedLine nestedConversion.code := by
  have hplan : (inPlace.plan (fun _ _ => ⟨Tree.nested, none⟩) ticking (alone nestedLine)).2
      = .ok ⟨inPlace, nestedConversion, none⟩ :=
    plan_of_planMap (t := nestedLine) rfl (convert_of_ofTree ⟨rfl, fun _ => rfl⟩
      (Conversion.ofTree_nested (by decide) rfl)) rfl
  have hrows : (Ending.ofRows ticking
      (Plan.summary ticking ⟨inPlace, nestedConversion, none⟩)).status = 0 := by
    rw [Plan.summary, tenths_ticking]
    with_unfolding_all rfl
  have hdone := status_alone hplan hrows
  obtain ⟨c, d₁, hconvert, -, -, -, htarget, -, hends, -⟩ :=
    read_target_of_done (invocation_alone _) rfl hdone
  have hc : c = nestedConversion := by
    obtain ⟨t, ht, hconvert', -⟩ := exists_of_plan hplan
    obtain rfl := Text.encode_injective (Except.ok.inj ht)
    exact Except.ok.inj (hconvert.symm.trans hconvert')
  obtain rfl := hc
  exact ⟨htarget (place_ne_alone _), fun h => hends.1 h (by decide)⟩

/-- A script without private names, in a line that ends with a carriage return and a line feed. -/
def returned : Text := ['a', ';', '\r', '\n']

/-- Without a private name, and without an edit, the bytes of a script are not what they were. -/
theorem read_target_returned :
    (run Script.parse ticking (alone returned) {} inPlaceWords).ending.status = 0 ∧
      (convert Script.parse (Text.evenLines returned) inPlace.options).2
        = .ok { code := ['a', ';', '\n'] } ∧
      (run Script.parse ticking (alone returned) {} inPlaceWords).disk.read "a.js".toList
        = .ok (Text.encode ['a', ';', '\n']) ∧
      Text.encode ['a', ';', '\n'] ≠ Text.encode returned := by
  have hconvert : (convert Script.parse (Text.evenLines returned) inPlace.options).2
      = .ok { code := ['a', ';', '\n'] } := rfl
  have hplan : (inPlace.plan Script.parse ticking (alone returned)).2
      = .ok ⟨inPlace, { code := ['a', ';', '\n'] }, none⟩ := rfl
  have hdone := status_alone hplan (by with_unfolding_all rfl)
  have hrun : run Script.parse ticking (alone returned) {} inPlaceWords
      = inPlace.run Script.parse ticking (alone returned) := run_eq (invocation_alone returned)
  refine ⟨hdone, hconvert, ?_, fun h => absurd (Text.encode_injective h) (by decide)⟩
  rw [hrun] at hdone ⊢
  exact read_target hdone hplan (place_ne_alone returned)

end Sigil.Command
