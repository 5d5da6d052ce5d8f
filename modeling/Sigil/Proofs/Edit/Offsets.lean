import Mathlib.Data.Int.Order.Basic
import Sigil.Proofs.Edit.Image

/-!
# Proofs/Edit/Offsets — what edits leave of a character they never write

    offsets in the edited text  =  offsets outside the spans, moved

The replacements bring no such character and the spans take theirs away; all others keep their
order and go where their offsets go.
-/

namespace Sigil

namespace Text

variable {x : Char} {t : Text}

theorem mem_idxsOf {q : Nat} : q ∈ t.idxsOf x ↔ t[q]? = some x := by
  rw [List.mem_idxsOf_iff_exists_getElem_pos, List.getElem?_eq_some_iff]
  exact exists_congr fun _ => beq_iff_eq

theorem lt_of_mem_idxsOf {q : Nat} (h : q ∈ t.idxsOf x) : q < t.length :=
  (List.getElem?_eq_some_iff.1 (mem_idxsOf.1 h)).1

theorem idxsOf_eq_nil_iff : t.idxsOf x = [] ↔ x ∉ t := by
  rw [List.idxsOf_eq_nil_iff]
  exact ⟨fun h hx => by simpa using h x hx,
    fun h y hy => beq_eq_false_iff_ne.2 fun hyx => h (hyx ▸ hy)⟩

/-- Behind a part of a text the offsets count from its end. -/
theorem idxsOf_append (x : Char) (s t : Text) :
    (s ++ t).idxsOf x = s.idxsOf x ++ (t.idxsOf x).map (s.length + ·) := by
  rw [List.idxsOf_append, List.idxsOf_start (s := 0 + s.length)]
  exact congrArg _ (List.map_congr_left fun q _ => by omega)

end Text

namespace Edit

/-- An offset that none of some spans covers. -/
def Outside (edits : List Edit) (p : Int) : Prop := ∀ e ∈ edits, ¬(e.start ≤ p ∧ p < e.stop)

instance (edits : List Edit) (p : Int) : Decidable (Outside edits p) :=
  inferInstanceAs (Decidable (∀ e ∈ edits, ¬(e.start ≤ p ∧ p < e.stop)))

theorem outside_cons {e : Edit} {edits : List Edit} {p : Int} :
    Outside (e :: edits) p ↔ ¬(e.start ≤ p ∧ p < e.stop) ∧ Outside edits p :=
  List.forall_mem_cons

end Edit

namespace Piece

variable {n : Nat} {p : Piece} {ps : List Piece} {q : Nat}

/-- What a piece keeps lies outside all spans. -/
theorem outside_of_lt_kept (h : q < p.kept.length) :
    Edit.Outside (edits n (p :: ps)) (n + q : Nat) := by
  refine Edit.outside_cons.2 ⟨?_, fun e he => ?_⟩
  · simp only
    omega
  · have := mem_edits he
    simp only [width] at this
    omega

/-- What a piece replaces lies in its span. -/
theorem not_outside_old (h : q < p.old.length) :
    ¬Edit.Outside (edits n (p :: ps)) (n + (p.kept.length + q) : Nat) := fun hout => by
  have := (Edit.outside_cons.1 hout).1
  simp only [width] at this
  omega

/-- Behind a piece only the spans of the later pieces count. -/
theorem outside_add_width :
    Edit.Outside (edits n (p :: ps)) (n + (p.width + q) : Nat)
      ↔ Edit.Outside (edits (n + p.width) ps) (n + p.width + q : Nat) := by
  rw [edits, Edit.outside_cons, ← Nat.add_assoc, and_iff_right]
  simp only
  omega

theorem idxsOf_before_cons (x : Char) (tail : Text) (p : Piece) (ps : List Piece) :
    (before tail (p :: ps)).idxsOf x = p.kept.idxsOf x
      ++ ((p.old.idxsOf x).map (p.kept.length + ·)
        ++ ((before tail ps).idxsOf x).map (p.width + ·)) := by
  rw [before, Text.idxsOf_append, Text.idxsOf_append, List.map_append, List.map_map]
  exact congrArg _ (congrArg _ (List.map_congr_left fun q _ => (Nat.add_assoc _ _ _).symm))

theorem idxsOf_after_cons {x : Char} (tail : Text) {p : Piece} (h : x ∉ p.new) (ps : List Piece) :
    (after tail (p :: ps)).idxsOf x
      = p.kept.idxsOf x ++ ((after tail ps).idxsOf x).map (p.newWidth + ·) := by
  rw [after, Text.idxsOf_append, Text.idxsOf_append, Text.idxsOf_eq_nil_iff.2 h, List.nil_append,
    List.map_map]
  exact congrArg _ (List.map_congr_left fun q _ => (Nat.add_assoc _ _ _).symm)

/-- The offsets that no span covers, behind a first piece. -/
theorem filter_outside_cons (x : Char) (tail : Text) (n : Nat) (p : Piece) (ps : List Piece) :
    (((before tail (p :: ps)).idxsOf x).filter
        fun q => Edit.Outside (edits n (p :: ps)) (n + q : Nat))
      = p.kept.idxsOf x ++ (((before tail ps).idxsOf x).filter
          fun q => Edit.Outside (edits (n + p.width) ps) (n + p.width + q : Nat)).map
            (p.width + ·) := by
  have hkept : (p.kept.idxsOf x).filter
      (fun q => Edit.Outside (edits n (p :: ps)) (n + q : Nat)) = p.kept.idxsOf x :=
    List.filter_eq_self.2 fun q hq =>
      decide_eq_true (outside_of_lt_kept (Text.lt_of_mem_idxsOf hq))
  have hold : ((p.old.idxsOf x).map (p.kept.length + ·)).filter
      (fun q => Edit.Outside (edits n (p :: ps)) (n + q : Nat)) = [] :=
    List.filter_eq_nil_iff.2 fun q hq => by
      obtain ⟨r, hr, rfl⟩ := List.mem_map.1 hq
      simpa using not_outside_old (Text.lt_of_mem_idxsOf hr)
  have hrest : ((fun q => decide (Edit.Outside (edits n (p :: ps)) (n + q : Nat)))
      ∘ (p.width + ·)) = fun q => decide (Edit.Outside (edits (n + p.width) ps)
        (n + p.width + q : Nat)) :=
    funext fun q => decide_eq_decide.2 outside_add_width
  rw [idxsOf_before_cons, List.filter_append, List.filter_append, hkept, hold, List.nil_append,
    List.filter_map, hrest]

theorem image_of_lt_kept (h : q < p.kept.length) : image (p :: ps) q = q := by
  rw [image, if_neg (by rw [width]; omega), Nat.min_eq_left (Nat.le_of_lt h)]

theorem image_add_width : image (p :: ps) (p.width + q) = p.newWidth + image ps q := by
  rw [image, if_pos (Nat.le_add_right _ _), Nat.add_sub_cancel_left]

/-- **The offsets of a character that no replacement holds**: those that no span covers go where the
pieces take them. -/
theorem idxsOf_after {x : Char} (tail : Text) {ps : List Piece} (hnew : ∀ p ∈ ps, x ∉ p.new)
    (n : Nat) : (after tail ps).idxsOf x
      = (((before tail ps).idxsOf x).filter fun q => Edit.Outside (edits n ps) (n + q : Nat)).map
          (image ps) := by
  induction ps generalizing n with
  | nil =>
    have hall : ∀ q ∈ tail.idxsOf x, decide (Edit.Outside (edits n []) (n + q : Nat)) = true :=
      fun q _ => decide_eq_true fun e he => absurd he List.not_mem_nil
    rw [before, after, List.filter_eq_self.2 hall]
    exact (List.map_id _).symm
  | cons p ps ih =>
    obtain ⟨hp, hps⟩ := List.forall_mem_cons.1 hnew
    have hfront : (p.kept.idxsOf x).map (image (p :: ps)) = (p.kept.idxsOf x).map id :=
      List.map_congr_left fun q hq => image_of_lt_kept (Text.lt_of_mem_idxsOf hq)
    have hback : image (p :: ps) ∘ (p.width + ·) = (p.newWidth + ·) ∘ image ps :=
      funext fun q => image_add_width
    rw [idxsOf_after_cons tail hp, ih hps (n + p.width), filter_outside_cons, List.map_append,
      hfront, List.map_id, List.map_map, List.map_map, hback]

/-- A character that no piece takes away stays. -/
theorem mem_after {x : Char} {tail : Text} {ps : List Piece} (hold : ∀ p ∈ ps, x ∉ p.old)
    (h : x ∈ before tail ps) : x ∈ after tail ps := by
  induction ps with
  | nil => exact h
  | cons p ps ih =>
    obtain ⟨hp, hps⟩ := List.forall_mem_cons.1 hold
    simp only [before, after, List.mem_append] at h ⊢
    rcases h with h | h | h
    · exact .inl h
    · exact absurd h hp
    · exact .inr (.inr (ih hps h))

end Piece

namespace Edit

/-- **A character that no replacement holds** stands in the edited text just where the spans leave
it, moved as the edits in front of it move it. -/
theorem idxsOf_patch {code out : Text} {edits : List Edit} {x : Char}
    (h : patch code edits = .ok out) (hnew : ∀ e ∈ edits, x ∉ e.newText) :
    (out.idxsOf x).map ((↑) : Nat → Int)
      = ((code.idxsOf x).filter fun q => Outside edits (q : Nat)).map
          fun q : Nat => moved edits q := by
  obtain ⟨ps, tail, rfl, rfl, -, hperm⟩ := Piece.exists_of_patch h
  have hpieces : ∀ p ∈ ps, x ∉ p.new := fun p hp => by
    obtain ⟨e, he, -, hp⟩ := Piece.exists_edit [] tail hp
    exact hp ▸ hnew e (hperm.mem_iff.1 he)
  have houtside : ∀ q : Nat, Outside (Piece.edits 0 ps) (0 + q : Nat) ↔ Outside edits q :=
    fun q => by simp only [Nat.zero_add, Outside, hperm.mem_iff]
  rw [Piece.idxsOf_after tail hpieces 0, List.map_map]
  simp only [houtside]
  refine List.map_congr_left fun q hq => ?_
  have hq : Outside edits q := of_decide_eq_true (List.mem_filter.1 hq).2
  exact (Piece.moved_eq_image hperm fun e he hin => hq e he ⟨hin.1.le, hin.2⟩).symm

/-- A character that is neither in a text nor in a replacement is not in the edited text. -/
theorem notMem_of_patch {code out : Text} {edits : List Edit} {x : Char}
    (h : patch code edits = .ok out) (hnew : ∀ e ∈ edits, x ∉ e.newText) (hx : x ∉ code) :
    x ∉ out := by
  have hout := idxsOf_patch h hnew
  rw [Text.idxsOf_eq_nil_iff.2 hx] at hout
  exact Text.idxsOf_eq_nil_iff.1 (List.map_eq_nil_iff.1 hout)

/-- A character of a text that no span takes away is in the edited text. -/
theorem mem_of_patch {code out : Text} {edits : List Edit} {x : Char}
    (h : patch code edits = .ok out) (hspan : ∀ e ∈ edits, x ∉ code.slice e.start e.stop)
    (hx : x ∈ code) : x ∈ out := by
  obtain ⟨ps, tail, rfl, rfl, -, hperm⟩ := Piece.exists_of_patch h
  refine Piece.mem_after (fun p hp => ?_) hx
  obtain ⟨e, he, hp, -⟩ := Piece.exists_edit [] tail hp
  exact hp ▸ hspan e (hperm.mem_iff.1 he)

end Edit

end Sigil
