import Sigil.Proofs.Disk.Places

/-!
# Proofs/Disk/Files — the files of a disk, place by place

    fileAt (changed d) l  =  the new bytes where l is the place of the path, fileAt d l elsewhere

A file is changed just where its path leads (`fileAt_of_change`), and whether another path can be
written does not depend on it (`writable_of_change`).  Making folders changes no file at all
(`fileAt_of_makeFolder`).
-/

namespace Sigil.Disk

variable {d d₁ d₂ : Disk} {path other : Text} {l k : Location} {f : ByteArray → ByteArray}
  {content : ByteArray}

/-- The bytes of the file at a place, if a file is there. -/
def fileAt (d : Disk) (l : Location) : Option ByteArray :=
  match d.get? l with
  | some (.file content) => some content
  | _ => none

theorem fileAt_congr (h : d₁.get? l = d₂.get? l) : d₁.fileAt l = d₂.fileAt l := by
  rw [fileAt, fileAt, h]

theorem fileAt_put_self : (d.put l (.file content)).fileAt l = some content := by
  simp only [fileAt, get?_put, if_true]

theorem get?_of_fileAt (h : d.fileAt l = some content) : d.get? l = some (.file content) := by
  rw [fileAt] at h
  split at h
  next hl => rw [hl, Option.some.inj h]
  next => cases h

/-- **A file is read at its place.** -/
theorem read_eq_ok_iff : d.read path = .ok content ↔
    d.locate path = .ok (d.place path) ∧ d.fileAt (d.place path) = some content := by
  constructor
  · intro h
    rw [read] at h
    split at h
    · cases h
    next l hl =>
    obtain rfl := place_of_locate hl
    split at h
    next c hc =>
      rw [fileAt, hc]
      exact ⟨hl, congrArg some (Except.ok.inj h)⟩
    · cases h
    · cases h
  · rintro ⟨hl, hfile⟩
    rw [read, hl]
    simp only [get?_of_fileAt hfile]

/-! ## Writing -/

/-- A file can be written under a path: there is a way to it, and no folder in its place. -/
def Writable (d : Disk) (path : Text) : Prop :=
  d.locate path = .ok (d.place path) ∧ d.get? (d.place path) ≠ some .folder

/-- **A file is changed** where its path leads. -/
theorem change_eq_ok_iff : d₁.change path f = .ok d₂ ↔ d₁.Writable path ∧
    d₂ = d₁.put (d₁.place path)
      (.file (f ((d₁.fileAt (d₁.place path)).getD ByteArray.empty))) := by
  constructor
  · intro h
    rw [change] at h
    split at h
    · cases h
    next l hl =>
    obtain rfl := place_of_locate hl
    rw [Writable, fileAt]
    split at h
    next old hold =>
      rw [hold]
      exact ⟨⟨hl, by simp⟩, (Except.ok.inj h).symm⟩
    · cases h
    next hnone =>
      rw [hnone]
      exact ⟨⟨hl, by simp⟩, (Except.ok.inj h).symm⟩
  · rintro ⟨⟨hl, hfree⟩, rfl⟩
    rw [change, hl, fileAt]
    cases hentry : d₁.get? (d₁.place path) with
    | none => simp only [hentry, Option.getD_none]
    | some entry =>
      cases entry with
      | folder => exact absurd hentry hfree
      | file content => simp only [hentry, Option.getD_some]

/-- A path that can be written can be written with anything. -/
theorem exists_change_iff : (∃ d₂, d₁.change path f = .ok d₂) ↔ d₁.Writable path :=
  ⟨fun ⟨_, h⟩ => (change_eq_ok_iff.1 h).1, fun h => ⟨_, change_eq_ok_iff.2 ⟨h, rfl⟩⟩⟩

theorem exists_error_iff : (∃ o, d₁.change path f = .error o) ↔ ¬d₁.Writable path := by
  rw [← exists_change_iff]
  cases d₁.change path f <;> simp

/-- A change is seen at no other place. -/
theorem get?_of_change (h : d₁.change path f = .ok d₂) (hl : d₁.place path ≠ l) :
    d₂.get? l = d₁.get? l := by
  obtain ⟨-, rfl⟩ := change_eq_ok_iff.1 h
  rw [get?_put, if_neg hl.symm]

/-- **A changed file holds its new bytes.** -/
theorem fileAt_of_change (h : d₁.change path f = .ok d₂) :
    d₂.fileAt (d₁.place path) = some (f ((d₁.fileAt (d₁.place path)).getD ByteArray.empty)) := by
  obtain ⟨-, rfl⟩ := change_eq_ok_iff.1 h
  exact fileAt_put_self

/-- Where the folders are the same, paths lead the same ways. -/
theorem follow_congr (h : ∀ l, d₁.get? l = some .folder ↔ d₂.get? l = some .folder)
    {parts : List Text} : d₁.follow l parts = .ok k ↔ d₂.follow l parts = .ok k := by
  induction parts generalizing l with
  | nil => exact Iff.rfl
  | cons part parts ih =>
    have hstep : ∀ d : Disk, d.follow l (part :: parts) = .ok k ↔
        d.get? l = some .folder ∧ d.follow (step l part) parts = .ok k := by
      intro d
      rw [follow]
      split <;> simp_all
    rw [hstep, hstep, h, ih]

/-- **Whether a path can be written** does not depend on a change at another place. -/
theorem writable_of_change (h : d₁.change path f = .ok d₂)
    (hne : d₁.place path ≠ d₁.place other) : d₂.Writable other ↔ d₁.Writable other := by
  have hplace := (later_of_change h).place other
  have hfolders : ∀ l, d₂.get? l = some .folder ↔ d₁.get? l = some .folder := by
    intro l
    obtain ⟨⟨-, hfree⟩, rfl⟩ := change_eq_ok_iff.1 h
    rw [get?_put]
    split
    next heq => simp [heq, hfree]
    next => exact Iff.rfl
  rw [Writable, Writable, hplace, get?_of_change h hne, locate, locate, start, start,
    (later_of_change h).here, follow_congr hfolders]

/-- A written file is there to be read as long as its place and the way to it are kept. -/
theorem read_of_later (h : d₁.locate path = .ok (d₁.place path)) (hlater : Later d₁ d₂)
    (hfile : d₂.fileAt (d₁.place path) = some content) : d₂.read path = .ok content :=
  read_eq_ok_iff.2 (by rw [hlater.place]; exact ⟨hlater.locate h, hfile⟩)

/-! ## Making folders -/

theorem get?_of_makeWay {parts : List Text} (h : d₁.makeWay k parts = .ok d₂) (l : Location) :
    d₂.get? l = d₁.get? l ∨ d₁.get? l = none ∧ d₂.get? l = some .folder := by
  induction parts generalizing d₁ k with
  | nil =>
    rw [makeWay] at h
    split at h
    · obtain rfl := Except.ok.inj h
      exact .inl rfl
    · cases h
    next hnone =>
      obtain rfl := Except.ok.inj h
      rw [get?_put]
      split
      next heq => exact .inr ⟨heq ▸ hnone, rfl⟩
      next => exact .inl rfl
  | cons part parts ih =>
    rw [makeWay] at h
    split at h
    · exact ih h
    · cases h
    next hnone =>
      have hput := ih h
      rw [get?_put] at hput
      split at hput
      next heq =>
        refine .inr ⟨heq ▸ hnone, ?_⟩
        rcases hput with hput | ⟨hput, -⟩
        · exact hput
        · cases hput
      next => exact hput

/-- **Making a folder** only puts folders where nothing was. -/
theorem get?_of_makeFolder (h : d₁.makeFolder path = .ok d₂) (l : Location) :
    d₂.get? l = d₁.get? l ∨ d₁.get? l = none ∧ d₂.get? l = some .folder :=
  get?_of_makeWay h l

theorem fileAt_of_makeFolder (h : d₁.makeFolder path = .ok d₂) (l : Location) :
    d₂.fileAt l = d₁.fileAt l := by
  rcases get?_of_makeFolder h l with hl | ⟨hnone, hfolder⟩
  · exact fileAt_congr hl
  · rw [fileAt, fileAt, hnone, hfolder]

end Sigil.Disk
