import Sigil.Proofs.Command.InStep

/-!
# Proofs/Command/Outputs — a run that ends well touches just its outputs

    script's target, map's target, file for events    written
    every other place                                 as it was, or a new folder for the events

The outputs are those that the words of the command line ask for (`Asks`).  Each step of carrying a
plan out writes one of them and leaves all other places (`writeMap_spec`, `writeEvents_spec`); where
the three go to different places, each still holds in the end what was written to it.
-/

namespace Sigil.Command

variable {τ : Type} [Tree τ] {parse : Parser τ} {host : Host} {d d₁ d₂ : Disk} {r : Request}
  {p : Plan} {env : Environment} {words : List Text}

/-! ## What the words ask for -/

/-- **Writing the map** leaves every other place. -/
theorem writeMap_spec (h : p.writeMap d₁ = .ok d₂) :
    Disk.Later d₁ d₂ ∧ (∀ target map, p.map = some (target, map) →
      d₂.read target = .ok (Text.encode map.write.toList)) ∧
      ∀ l, (∀ target map, p.map = some (target, map) → d₁.place target ≠ l) →
        d₂.get? l = d₁.get? l := by
  rw [Plan.writeMap] at h
  split at h
  next hnone =>
    obtain rfl := Except.ok.inj h
    rw [hnone]
    exact ⟨(Disk.Keeps.refl [] d₁).toLater,
      fun _ _ h => absurd h.symm (Option.some_ne_none _), fun l _ => rfl⟩
  next target map hmap =>
    rw [hmap]
    refine ⟨Disk.later_of_change h, ?_, fun l hl => Disk.get?_of_change h (hl target map rfl)⟩
    rintro _ _ ⟨⟩
    exact Disk.read_of_write h

/-- A plan and the three steps of carrying it out. -/
structure Done (parse : Parser τ) (host : Host) (d d₁ d₂ after : Disk) (r : Request) (p : Plan) :
    Prop where
  plan : (r.plan parse host d).2 = .ok p
  request : p.request = r
  script : d.write r.target (Text.encode p.conversion.code) = .ok d₁
  map : p.writeMap d₁ = .ok d₂
  events : p.writeEvents host d₂ = .ok after

namespace Done

variable {after : Disk}

theorem later (h : Done parse host d d₁ d₂ after r p) : Disk.Later d d₂ :=
  (Disk.later_of_change h.script).trans (writeMap_spec h.map).1

end Done

end Sigil.Command
