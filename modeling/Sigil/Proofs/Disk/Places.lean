import Sigil.Disk

/-!
# Proofs/Disk/Places — what writing one file leaves of a disk

Folders are never taken away, so a path that leads somewhere goes on leading there, and where it
leads can be read off its parts (`place_of_locate`).  A written file is found under its path, and
any other place holds what it held (`read_of_write`, `keeps_of_change`).  Making folders adds and
takes nothing away (`keeps_of_makeFolder`).
-/

namespace Sigil.Disk

variable {d d₁ d₂ : Disk} {path : Text} {l k : Location}

/-! ## Where a path leads -/

/-- The place of a path, whether or not there is a way to it. -/
def place (d : Disk) (path : Text) : Location := (Path.parts path).foldl step (d.start path)

theorem eq_of_follow {parts : List Text} (h : d.follow l parts = .ok k) :
    k = parts.foldl step l := by
  induction parts generalizing l with
  | nil => exact (Except.ok.inj h).symm
  | cons part parts ih =>
    rw [follow] at h
    split at h
    · exact ih h
    · cases h
    · cases h

/-- **A path that leads somewhere leads to its place.** -/
theorem place_of_locate (h : d.locate path = .ok l) : l = d.place path := eq_of_follow h

/-- A later state of a disk: relative paths start where they did, and no folder is gone. -/
structure Later (d₁ d₂ : Disk) : Prop where
  here : d₂.here = d₁.here
  folder : ∀ l, d₁.get? l = some .folder → d₂.get? l = some .folder

theorem Later.trans {d₃ : Disk} (h : Later d₁ d₂) (h' : Later d₂ d₃) : Later d₁ d₃ :=
  ⟨h'.here.trans h.here, fun l hl => h'.folder l (h.folder l hl)⟩

/-- Something put where no folder is. -/
theorem later_put {e : Entry} (h : d.get? l ≠ some .folder) : Later d (d.put l e) where
  here := rfl
  folder k hk := by
    have hne : k ≠ l := fun hkl => h (hkl ▸ hk)
    rw [get?_put, if_neg hne]
    exact hk

theorem Later.place (h : Later d₁ d₂) (path : Text) : d₂.place path = d₁.place path := by
  rw [Disk.place, Disk.place, start, start, h.here]

theorem Later.follow (h : Later d₁ d₂) {parts : List Text} (hl : d₁.follow l parts = .ok k) :
    d₂.follow l parts = .ok k := by
  induction parts generalizing l with
  | nil => exact hl
  | cons part parts ih =>
    rw [Disk.follow] at hl
    split at hl
    next hfolder =>
      rw [Disk.follow, h.folder l hfolder]
      exact ih hl
    · cases hl
    · cases hl

/-- **A path goes on leading where it led.** -/
theorem Later.locate (h : Later d₁ d₂) (hl : d₁.locate path = .ok l) :
    d₂.locate path = .ok l := by
  rw [Disk.locate, start] at hl ⊢
  rw [h.here]
  exact h.follow hl

/-- A later state of a disk in which a place still holds what it held. -/
structure Keeps (l : Location) (d₁ d₂ : Disk) : Prop extends Later d₁ d₂ where
  entry : ∀ e, d₁.get? l = some e → d₂.get? l = some e

theorem Keeps.refl (l : Location) (d : Disk) : Keeps l d d := ⟨⟨rfl, fun _ h => h⟩, fun _ h => h⟩

theorem Keeps.trans {d₃ : Disk} (h : Keeps l d₁ d₂) (h' : Keeps l d₂ d₃) : Keeps l d₁ d₃ :=
  ⟨h.toLater.trans h'.toLater, fun e hl => h'.entry e (h.entry e hl)⟩

/-- **A file is read as long as it stays at its place.** -/
theorem Keeps.read {content : ByteArray} (h : Keeps (d₁.place path) d₁ d₂)
    (hread : d₁.read path = .ok content) : d₂.read path = .ok content := by
  rw [Disk.read] at hread ⊢
  split at hread
  · cases hread
  next l hl =>
  obtain rfl := place_of_locate hl
  rw [h.locate hl]
  split at hread
  next c hc =>
    simp only [h.entry _ hc]
    exact hread
  · cases hread
  · cases hread

/-! ## Changing files -/

/-- **What a changed file leaves**: it holds something at the place of its path, and every other
place is as it was. -/
theorem change_spec {f : ByteArray → ByteArray} (h : d₁.change path f = .ok d₂) :
    ∃ old, d₁.locate path = .ok (d₁.place path) ∧ d₁.get? (d₁.place path) ≠ some .folder ∧
      d₂ = d₁.put (d₁.place path) (.file (f old)) := by
  rw [change] at h
  split at h
  · cases h
  next l hl =>
  obtain rfl := place_of_locate hl
  split at h
  next old hold =>
    obtain rfl := Except.ok.inj h
    exact ⟨old, hl, by simp [hold], rfl⟩
  · cases h
  next hnone =>
    obtain rfl := Except.ok.inj h
    exact ⟨ByteArray.empty, hl, by simp [hnone], rfl⟩

/-- **Changing a file leaves all other places.** -/
theorem keeps_of_change {f : ByteArray → ByteArray} (h : d₁.change path f = .ok d₂)
    (hl : d₁.place path ≠ l) : Keeps l d₁ d₂ := by
  obtain ⟨old, -, hfree, rfl⟩ := change_spec h
  refine ⟨later_put hfree, fun e he => ?_⟩
  rw [get?_put, if_neg hl.symm]
  exact he

theorem later_of_change {f : ByteArray → ByteArray} (h : d₁.change path f = .ok d₂) :
    Later d₁ d₂ := by
  obtain ⟨old, -, hfree, rfl⟩ := change_spec h
  exact later_put hfree

/-- **A written file is read.** -/
theorem read_of_write {content : ByteArray} (h : d₁.write path content = .ok d₂) :
    d₂.read path = .ok content := by
  obtain ⟨old, hl, hfree, rfl⟩ := change_spec h
  rw [read, (later_put hfree).locate hl]
  simp only [get?_put, if_true]

/-! ## Making folders -/

/-- Something put where nothing is. -/
theorem keeps_put {e : Entry} (h : d.get? l = none) (k : Location) : Keeps k d (d.put l e) := by
  refine ⟨later_put (by rw [h]; exact (Option.some_ne_none _).symm), fun x hx => ?_⟩
  have hne : k ≠ l := by
    rintro rfl
    exact absurd (hx.symm.trans h) (Option.some_ne_none x)
  rw [get?_put, if_neg hne]
  exact hx

theorem keeps_of_makeWay {parts : List Text} (h : d₁.makeWay l parts = .ok d₂) (k : Location) :
    Keeps k d₁ d₂ := by
  induction parts generalizing d₁ l with
  | nil =>
    rw [makeWay] at h
    split at h
    · obtain rfl := Except.ok.inj h
      exact .refl k d₁
    · cases h
    next hnone =>
      obtain rfl := Except.ok.inj h
      exact keeps_put hnone k
  | cons part parts ih =>
    rw [makeWay] at h
    split at h
    · exact ih h
    · cases h
    next hnone => exact (keeps_put hnone k).trans (ih h)

/-- **Making a folder takes nothing away.** -/
theorem keeps_of_makeFolder (h : d₁.makeFolder path = .ok d₂) (l : Location) : Keeps l d₁ d₂ :=
  keeps_of_makeWay h l

end Sigil.Disk
