import Sigil.Proofs.Convert.Signs
import Sigil.Text.Lines

/-!
# Proofs/Convert/LineEnds — what is left of the line ends of a script

A script is converted after its line ends are made alike, and a conversion writes short names and
quotes only, so the new script holds no carriage return (`carriageReturn_notMem_code`).  Edits that
leave all line ends in place therefore lead to it from the script itself only if that has no
carriage return either (`keepsLineEnds_iff`).
-/

namespace Sigil

namespace Text

/-- Line ends made alike are line feeds. -/
theorem carriageReturn_notMem_evenLines (t : Text) : '\r' ∉ evenLines t := by
  fun_induction evenLines t with
  | case1 rest ih => exact List.not_mem_cons_of_ne_of_not_mem (by decide) ih
  | case2 rest _ ih => exact List.not_mem_cons_of_ne_of_not_mem (by decide) ih
  | case3 c rest _ hc ih => exact List.not_mem_cons_of_ne_of_not_mem (fun h => hc h.symm) ih
  | case4 => exact List.not_mem_nil

/-- **Only carriage returns are evened out.** -/
theorem evenLines_eq_self_iff {t : Text} : evenLines t = t ↔ '\r' ∉ t :=
  ⟨fun h => h ▸ carriageReturn_notMem_evenLines t, evenLines_eq_self⟩

/-- A text comes from another by edits that neither take nor bring a carriage return. -/
def KeepsLineEnds (t out : Text) : Prop :=
  ∃ edits, Edit.patch t edits = .ok out ∧
    ∀ e ∈ edits, '\r' ∉ t.slice e.start e.stop ∧ '\r' ∉ e.newText

end Text

namespace Conversion

variable {τ : Type} [Tree τ] {parse : Parser τ} {o : ConvertOptions} {code t : Text}
  {c : Conversion}

/-- **A finished conversion** put its edits into the script, and they bring no carriage return. -/
theorem patch_of_convert (h : (convert parse code o).2 = .ok c) :
    Edit.patch code c.edits = .ok c.code ∧ ∀ e ∈ c.edits, '\r' ∉ e.newText := by
  obtain ⟨root, hroot⟩ := exists_ofTree_of_convert h
  obtain ⟨hpatch, hedits⟩ := patch_of_ofTree hroot
  exact ⟨hpatch, fun e he =>
    notMem_newText (by decide) ShortName.carriageReturn_notMem_name (hedits e he)⟩

/-- A converted script holds no carriage return once the line ends of the script are alike. -/
theorem carriageReturn_notMem_code (h : (convert parse (Text.evenLines t) o).2 = .ok c) :
    '\r' ∉ c.code := by
  obtain ⟨hpatch, hnew⟩ := patch_of_convert h
  exact Edit.notMem_of_patch hpatch hnew (Text.carriageReturn_notMem_evenLines t)

/-- **The line ends of a script are kept just when they are line feeds already.** -/
theorem keepsLineEnds_iff (h : (convert parse (Text.evenLines t) o).2 = .ok c) :
    Text.KeepsLineEnds t c.code ↔ '\r' ∉ t := by
  obtain ⟨hpatch, hnew⟩ := patch_of_convert h
  constructor
  · rintro ⟨edits, hedits, hends⟩ hreturn
    exact carriageReturn_notMem_code h
      (Edit.mem_of_patch hedits (fun e he => (hends e he).1) hreturn)
  · intro hreturn
    rw [Text.evenLines_eq_self hreturn] at hpatch
    refine ⟨c.edits, hpatch, fun e he => ⟨fun hslice => hreturn ?_, hnew e he⟩⟩
    exact List.mem_of_mem_take (List.mem_of_mem_drop hslice)

end Conversion

end Sigil
