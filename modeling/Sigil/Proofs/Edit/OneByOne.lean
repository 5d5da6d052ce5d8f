import Mathlib.Data.List.Nodup
import Sigil.Proofs.Edit.Offsets

/-!
# Proofs/Edit/OneByOne — one pass does what replacing span after span does

    text ──last edit──▸ … ──second edit──▸ … ──first edit──▸ edited text

Taken from the last to the first, no span has moved yet when its turn comes.  `Edit.patch` copies
the text once and comes to the same text.  It refuses exactly the lists in which, once they are
sorted, some edit misfits those in front of it (`patch_oneByOne`).
-/

namespace Sigil

namespace Edit

/-- A text with one span replaced. -/
def replace (text : Text) (e : Edit) : Text :=
  text.slice 0 e.start ++ e.newText ++ text.slice e.stop text.length

/-- **A text with spans replaced one at a time**, the last one first. -/
def replaceAll (text : Text) (edits : List Edit) : Text :=
  edits.foldr (fun e t => replace t e) text

/-- Where the last of some edits ends, and `lo` if there is none. -/
def lastStop (lo : Int) (edits : List Edit) : Int := (edits.getLast?.map fun e => e.stop).getD lo

/-- **An edit that cannot stand behind others** in a text of length `n`, from `lo` on. -/
def Misfits (n : Nat) (lo : Int) (front : List Edit) (e : Edit) : Prop :=
  e.start < lastStop lo front ∨ e.stop < e.start ∨ (n : Int) < e.stop

/-! ## What is refused -/

theorem lastStop_cons (lo : Int) (e : Edit) (edits : List Edit) :
    lastStop lo (e :: edits) = lastStop e.stop edits := by
  rw [lastStop, lastStop, List.getLast?_cons, Option.map_some, Option.getD_some]
  cases edits.getLast? <;> rfl

/-- Of a first edit and the others either it misfits, or one that misfits behind it. -/
theorem exists_misfits_cons {n : Nat} {lo : Int} {a : Edit} {es : List Edit} :
    (∃ front e back, a :: es = front ++ e :: back ∧ Misfits n lo front e)
      ↔ Misfits n lo [] a ∨ ∃ front e back, es = front ++ e :: back ∧ Misfits n a.stop front e := by
  constructor
  · rintro ⟨front, e, back, hes, hmisfits⟩
    cases front with
    | nil =>
      obtain ⟨rfl, -⟩ := List.cons.inj hes
      exact .inl hmisfits
    | cons b front =>
      obtain ⟨rfl, htail⟩ := List.cons.inj hes
      rw [Misfits, lastStop_cons] at hmisfits
      exact .inr ⟨front, e, back, htail, hmisfits⟩
  · rintro (hmisfits | ⟨front, e, back, rfl, hmisfits⟩)
    · exact ⟨[], a, es, rfl, hmisfits⟩
    · refine ⟨a :: front, e, back, rfl, ?_⟩
      rw [Misfits, lastStop_cons]
      exact hmisfits

/-- **Edits are refused exactly when one of them misfits** those in front of it. -/
theorem patchFrom_eq_error_iff {text : Text} {done : Int} {es : List Edit} :
    (∃ m, patchFrom text done es = .error m)
      ↔ ∃ front e back, es = front ++ e :: back ∧ Misfits text.length done front e := by
  induction es generalizing done with
  | nil => simp [patchFrom]
  | cons a es ih =>
    rw [exists_misfits_cons, ← ih, patchFrom]
    split
    · next hstart => exact iff_of_true ⟨_, rfl⟩ (.inl (.inl hstart))
    next hstart =>
    split
    · next hspan => exact iff_of_true ⟨_, rfl⟩ (.inl (.inr hspan))
    next hspan =>
    have hfits : ¬Misfits text.length done [] a := not_or.2 ⟨hstart, hspan⟩
    rw [or_iff_right hfits]
    cases patchFrom text a.stop es with
    | error m => exact iff_of_true ⟨m, rfl⟩ ⟨m, rfl⟩
    | ok tail => exact iff_of_false (by rintro ⟨_, ⟨⟩⟩) (by rintro ⟨_, ⟨⟩⟩)

/-- Where no two edits start at one place, sorting forgets the order in which they came. -/
theorem sorted_eq_of_perm {edits edits' : List Edit} (h : (edits.map start).Nodup)
    (hperm : edits'.Perm edits) : sorted edits' = sorted edits := by
  have hsorted : (sorted edits).Perm edits := List.mergeSort_perm _ _
  have hnodup : (sorted edits).Pairwise fun a b => a.start ≠ b.start :=
    List.pairwise_map.1 ((hsorted.map start).nodup_iff.2 h)
  refine sorted_of_perm (hperm.trans hsorted.symm) ?_
  exact (ascending_sorted edits).imp₂ (fun _ _ hle hne => Int.lt_iff_le_and_ne.2 ⟨hle, hne⟩)
    hnodup

end Edit

namespace Piece

variable {n : Nat} {tail : Text} {p : Piece} {ps : List Piece} {q r : Nat}

/-! ## One span after the other -/

/-- Replacing a part of a text at its place. -/
theorem replace_append (s old rest new : Text) :
    Edit.replace (s ++ (old ++ rest)) ⟨(s.length : Nat), (s.length + old.length : Nat), new⟩
      = s ++ (new ++ rest) := by
  have hfront : (s ++ (old ++ rest)).slice (0 : Nat) s.length = s := by
    rw [Text.slice_ofNat, List.take_left, List.drop_zero]
  have hback : (s ++ (old ++ rest)).slice (s.length + old.length : Nat)
      (s ++ (old ++ rest)).length = rest := by
    rw [slice_length, ← List.append_assoc, ← List.length_append, List.drop_left]
  rw [Edit.replace, hback, List.append_assoc]
  exact congrArg (· ++ _) hfront

/-- **Replacing the spans of pieces from the last to the first** puts the edited text together. -/
theorem replaceAll_edits (u tail : Text) (ps : List Piece) :
    Edit.replaceAll (u ++ before tail ps) (edits u.length ps) = u ++ after tail ps := by
  induction ps generalizing u with
  | nil => rfl
  | cons p ps ih =>
    have hrest := ih (u ++ (p.kept ++ p.old))
    have htext : (u ++ (p.kept ++ p.old)) ++ before tail ps = u ++ before tail (p :: ps) := by
      simp only [before, List.append_assoc]
    have hlen : (u ++ (p.kept ++ p.old)).length = u.length + p.width := by
      simp only [width, List.length_append]
    have hcut : (u ++ (p.kept ++ p.old)) ++ after tail ps
        = (u ++ p.kept) ++ (p.old ++ after tail ps) := by simp only [List.append_assoc]
    have hspan := replace_append (u ++ p.kept) p.old (after tail ps) p.new
    rw [List.length_append, Nat.add_assoc] at hspan
    rw [htext, hlen, hcut] at hrest
    rw [edits, Edit.replaceAll, List.foldr_cons, ← Edit.replaceAll, hrest, width, hspan, after,
      List.append_assoc]

/-- A text becomes longer by what its edits grow. -/
theorem length_after (n : Nat) (tail : Text) (ps : List Piece) :
    ((after tail ps).length : Int) = (before tail ps).length
      - ((edits n ps).map Edit.originalLength).sum
      + ((edits n ps).map fun e => (e.newText.length : Int)).sum := by
  induction ps generalizing n with
  | nil => simp [edits, before, after]
  | cons p ps ih =>
    rw [edits, List.map_cons, List.map_cons, List.sum_cons, List.sum_cons, length_before_cons,
      length_after_cons, Int.natCast_add, ih (n + p.width)]
    simp only [Edit.originalLength, width, newWidth]
    omega

/-! ## What stays -/

/-- Behind two parts of a text stands the rest. -/
theorem getElem?_append_append (s t rest : Text) :
    (s ++ (t ++ rest))[s.length + t.length + r]? = rest[r]? := by
  rw [← List.append_assoc, ← List.length_append, List.getElem?_append_right (Nat.le_add_right _ _),
    Nat.add_sub_cancel_left]

theorem getElem?_before_add_width :
    (before tail (p :: ps))[p.width + r]? = (before tail ps)[r]? :=
  getElem?_append_append p.kept p.old (before tail ps)

theorem getElem?_after_add_newWidth :
    (after tail (p :: ps))[p.newWidth + r]? = (after tail ps)[r]? :=
  getElem?_append_append p.kept p.new (after tail ps)

/-- An offset outside the spans lies in what the first piece keeps or behind the piece. -/
theorem lt_kept_or_width_le (h : Edit.Outside (edits n (p :: ps)) (n + q : Nat)) :
    q < p.kept.length ∨ ∃ r, q = p.width + r := by
  rcases Nat.lt_or_ge q p.kept.length with hkept | hkept
  · exact .inl hkept
  · obtain ⟨k, rfl⟩ := Nat.exists_eq_add_of_le hkept
    have hk : ¬k < p.old.length := fun hk => not_outside_old hk h
    exact .inr ⟨k - p.old.length, by rw [width]; omega⟩

/-- **A character outside the spans** stands where its offset goes. -/
theorem getElem?_image (h : Edit.Outside (edits n ps) (n + q : Nat)) :
    (after tail ps)[image ps q]? = (before tail ps)[q]? := by
  induction ps generalizing n q with
  | nil => rfl
  | cons p ps ih =>
    rcases lt_kept_or_width_le h with hq | ⟨r, rfl⟩
    · rw [image_of_lt_kept hq, before, after, List.getElem?_append_left hq,
        List.getElem?_append_left hq]
    · rw [image_add_width, getElem?_after_add_newWidth, getElem?_before_add_width,
        ih (outside_add_width.1 h)]

/-- **Offsets behind one outside the spans** go behind it. -/
theorem image_lt_image (h : Edit.Outside (edits n ps) (n + q : Nat)) (hqr : q < r) :
    image ps q < image ps r := by
  induction ps generalizing n q r with
  | nil => exact hqr
  | cons p ps ih =>
    rcases lt_kept_or_width_le h with hq | ⟨k, rfl⟩
    · rw [image_of_lt_kept hq, image]
      split
      · simp only [newWidth]
        omega
      · omega
    · obtain ⟨j, rfl⟩ := Nat.exists_eq_add_of_le (Nat.le_of_lt hqr)
      rw [Nat.add_assoc, image_add_width, image_add_width]
      exact Nat.add_lt_add_left (ih (outside_add_width.1 h) (by omega)) _

end Piece

namespace Edit

/-- **One pass does what replacing span after span does**, or refuses.  Edits are refused exactly
when, once they are sorted, one starts before the one in front of it ends (the first: before the
text starts), runs backwards or ends behind the text.  Otherwise the edited text is what is left
when the spans are replaced one at a time, the last one first: its length is accounted for, and the
characters outside the spans are all there, in their order, each where the edits in front of it move
it.  Where no two edits start at one place, it does not matter in which order they come. -/
theorem patch_oneByOne (text : Text) (edits : List Edit) :
    ((∃ m, patch text edits = .error m) ↔
      ∃ front e back, sorted edits = front ++ e :: back ∧ Misfits text.length 0 front e) ∧
    (∀ out, patch text edits = .ok out →
      out = replaceAll text (sorted edits) ∧
      (out.length : Int) = text.length - (edits.map originalLength).sum
        + (edits.map fun e => (e.newText.length : Int)).sum ∧
      (∀ p : Nat, Outside edits p → ∃ q : Nat, moved edits p = q ∧ out[q]? = text[p]?) ∧
      ∀ p q : Nat, p < q → Outside edits p → Outside edits q → moved edits p < moved edits q) ∧
    ((edits.map start).Nodup → ∀ edits' : List Edit, edits'.Perm edits →
      patch text edits' = patch text edits) := by
  refine ⟨patchFrom_eq_error_iff, fun out h => ?_, fun hnodup edits' hperm => ?_⟩
  · obtain ⟨ps, tail, rfl, rfl, hes, hperm⟩ := Piece.exists_of_patch h
    have houtside : ∀ p : Nat, Outside edits p → Outside (Piece.edits 0 ps) (0 + p : Nat) :=
      fun p hp e he => (Nat.zero_add p).symm ▸ hp e (hperm.mem_iff.1 he)
    have hmoved : ∀ p : Nat, Outside edits p → moved edits p = Piece.image ps p := fun p hp =>
      Piece.moved_eq_image hperm fun e he hin => hp e he ⟨hin.1.le, hin.2⟩
    refine ⟨?_, ?_, fun p hp => ⟨_, hmoved p hp, Piece.getElem?_image (houtside p hp)⟩,
      fun p q hpq hp hq => ?_⟩
    · rw [hes]
      exact (Piece.replaceAll_edits [] tail ps).symm
    · rw [Piece.length_after 0, (hperm.map originalLength).sum_eq,
        (hperm.map fun e => (e.newText.length : Int)).sum_eq]
    · rw [hmoved p hp, hmoved q hq]
      exact Int.ofNat_lt.2 (Piece.image_lt_image (houtside p hp) hpq)
  · rw [patch, patch, sorted_eq_of_perm hnodup hperm]

/-- Two names side by side, the second one given first. -/
def neighbours : List Edit := [⟨2, 4, "$b".toList⟩, ⟨0, 2, "'$a'".toList⟩]

theorem patch_oneByOne_neighbours :
    patch "#x#y=1".toList neighbours = .ok "'$a'$b=1".toList ∧
      "'$a'$b=1".toList = replaceAll "#x#y=1".toList (sorted neighbours) ∧
      (∃ q : Nat, moved neighbours (4 : Nat) = q ∧ "'$a'$b=1".toList[q]? = some '=') ∧
      moved neighbours (4 : Nat) < moved neighbours (5 : Nat) ∧
      patch "#x#y=1".toList neighbours.reverse = patch "#x#y=1".toList neighbours := by
  have h : patch "#x#y=1".toList neighbours = .ok "'$a'$b=1".toList := by
    rw [patch, neighbours, sorted_of_perm (.swap _ _ _) (by decide)]
    rfl
  have hfour : Outside neighbours (4 : Nat) := by decide
  have hfive : Outside neighbours (5 : Nat) := by decide
  obtain ⟨-, hok, horder⟩ := patch_oneByOne "#x#y=1".toList neighbours
  obtain ⟨hall, -, hkept, hmoved⟩ := hok _ h
  exact ⟨h, hall, hkept 4 hfour, hmoved 4 5 (by decide) hfour hfive,
    horder (by decide) _ (List.reverse_perm _)⟩

end Edit

end Sigil
