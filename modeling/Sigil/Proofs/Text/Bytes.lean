import Sigil.Proofs.Text.Columns
import Sigil.Text.Utf8

/-!
# Proofs/Text/Bytes — a text cut by bytes and by characters

    i  ↦  byteLength (take i)

takes the offset of a character to the offset of its first byte.  What it reaches are the places
where the bytes of a text may be cut (`Boundary`).  There the byte index gives the character offset
back (`toOffset_byteLength`), so cutting bytes and cutting characters are the same
(`Boundary.decode?_extract`).
-/

namespace Sigil.Text

/-! ## Prefixes by their bytes -/

/-- Every character has a byte. -/
theorem length_le_byteLength (t : Text) : t.length ≤ byteLength t := by
  induction t with
  | nil => exact Nat.le_refl 0
  | cons c t ih =>
    have := Char.utf8Size_pos c
    rw [byteLength_cons, List.length_cons]
    omega

/-- A longer prefix has more bytes. -/
theorem byteLength_take_lt {t : Text} {i j : Nat} (hij : i < j) (hj : j ≤ t.length) :
    byteLength (t.take i) < byteLength (t.take j) := by
  induction t generalizing i j with
  | nil => exact absurd hj (by rw [List.length_nil]; omega)
  | cons c t ih =>
    obtain ⟨j, rfl⟩ : ∃ k, j = k + 1 := ⟨j - 1, by omega⟩
    cases i with
    | zero =>
      rw [List.take_zero, byteLength_nil, List.take_succ_cons, byteLength_cons]
      exact Nat.lt_of_lt_of_le (Char.utf8Size_pos c) (Nat.le_add_right _ _)
    | succ i =>
      rw [List.take_succ_cons, List.take_succ_cons, byteLength_cons, byteLength_cons]
      exact Nat.add_lt_add_left (ih (by omega) (Nat.le_of_succ_le_succ hj)) _

theorem byteLength_take_le (t : Text) {i j : Nat} (h : i ≤ j) :
    byteLength (t.take i) ≤ byteLength (t.take j) := by
  rw [← take_append_slice t h, byteLength_append]
  exact Nat.le_add_right _ _

/-- **Prefixes compare by their bytes as by their characters.** -/
theorem byteLength_take_le_iff {t : Text} {i j : Nat} (hi : i ≤ t.length) :
    byteLength (t.take i) ≤ byteLength (t.take j) ↔ i ≤ j :=
  ⟨fun h => Nat.not_lt.1 fun hji => Nat.not_le.2 (byteLength_take_lt hji hi) h,
    byteLength_take_le t⟩

/-- **A text has as many bytes as characters** iff it is ASCII. -/
theorem byteLength_eq_length_iff {t : Text} :
    byteLength t = t.length ↔ ∀ c ∈ t, c.toNat ≤ 0x7f := by
  induction t with
  | nil => exact ⟨fun _ _ hc => absurd hc List.not_mem_nil, fun _ => rfl⟩
  | cons c t ih =>
    have hpos := Char.utf8Size_pos c
    have hrest := length_le_byteLength t
    have hone : c.utf8Size = 1 ↔ c.toNat ≤ 0x7f := Char.utf8Size_eq_one_iff
    rw [List.forall_mem_cons, ← ih, ← hone, byteLength_cons, List.length_cons]
    omega

/-! ## The byte index -/

theorem lt_stop_of_mem_wideEnds {offset extra : Nat} {t : Text} {w : WideEnd}
    (h : w ∈ wideEnds offset extra t) : offset < w.stop := by
  induction t generalizing offset extra with
  | nil => exact absurd h List.not_mem_nil
  | cons c t ih =>
    have hpos := Char.utf8Size_pos c
    rw [wideEnds] at h
    split at h
    · rcases List.mem_cons.1 h with rfl | h
      · exact Nat.lt_add_of_pos_right hpos
      · exact Nat.lt_of_le_of_lt (Nat.le_add_right _ _) (ih h)
    · exact Nat.lt_of_le_of_lt (Nat.le_add_right _ _) (ih h)

/-- **The ends of wide characters ascend**, so that they can be searched by halves. -/
theorem pairwise_wideEnds (offset extra : Nat) (t : Text) :
    (wideEnds offset extra t).Pairwise fun w v => w.stop < v.stop := by
  induction t generalizing offset extra with
  | nil => exact .nil
  | cons c t ih =>
    rw [wideEnds]
    split
    · exact List.pairwise_cons.2 ⟨fun v hv => lt_stop_of_mem_wideEnds hv, ih _ _⟩
    · exact ih _ _

/-- A character that is not wide is one byte. -/
theorem utf8Size_eq_one {c : Char} (h : ¬0x7f < c.toNat) : c.utf8Size = 1 :=
  Char.utf8Size_eq_one_iff.2 (Nat.not_lt.1 h)

/-- No wide character ends at or before an offset that the text lies behind. -/
theorem takeWhile_wideEnds_self (offset extra : Nat) (t : Text) :
    ((wideEnds offset extra t).takeWhile fun w : WideEnd => (w.stop : Int) ≤ offset) = [] := by
  cases h : wideEnds offset extra t with
  | nil => rfl
  | cons w ws =>
    have hw : offset < w.stop := lt_stop_of_mem_wideEnds (h ▸ List.mem_cons_self)
    rw [List.takeWhile_cons_of_neg (by simpa using hw)]

/-- **The last wide character before an offset knows the extra bytes** of all the text before the
offset, one-byte characters having none. -/
theorem getLast?_wideEnds (offset extra i : Nat) (t : Text) :
    ((((wideEnds offset extra t).takeWhile fun w : WideEnd =>
        (w.stop : Int) ≤ (offset + byteLength (t.take i) : Nat)).getLast?.map (·.extra)).getD extra)
      + (t.take i).length = extra + byteLength (t.take i) := by
  induction t generalizing offset extra i with
  | nil => simp [wideEnds]
  | cons c t ih =>
    cases i with
    | zero =>
      rw [List.take_zero, byteLength_nil, Nat.add_zero, takeWhile_wideEnds_self]
      rfl
    | succ i =>
      have hpos := Char.utf8Size_pos c
      have hassoc : offset + (c.utf8Size + byteLength (t.take i))
          = offset + c.utf8Size + byteLength (t.take i) := (Nat.add_assoc _ _ _).symm
      rw [List.take_succ_cons, byteLength_cons, List.length_cons, wideEnds, hassoc]
      split
      · have hrest := ih (offset + c.utf8Size) (extra + (c.utf8Size - 1)) i
        rw [List.takeWhile_cons_of_pos (by simp only [decide_eq_true_eq]; omega),
          List.getLast?_cons, Option.map_some, Option.getD_some,
          ← Option.getD_map fun w : WideEnd => w.extra]
        dsimp only
        omega
      · next hc =>
        have hrest := ih (offset + c.utf8Size) extra i
        have hone := utf8Size_eq_one hc
        omega

/-- **The byte index finds characters.**  It takes the byte offset of a character to the offset of
the character. -/
theorem toOffset_byteLength {t : Text} {i : Nat} (hi : i ≤ t.length) :
    (ByteIndex.ofText t).toOffset (byteLength (t.take i)) = i := by
  have hlen : (t.take i).length = i := List.length_take_of_le hi
  rw [ByteIndex.toOffset]
  split
  · next hplain =>
    -- no character has more than one byte
    have hall : byteLength t = t.length := of_decide_eq_true hplain
    have hsplit := byteLength_append (t.take i) (t.drop i)
    have hfront := length_le_byteLength (t.take i)
    have hback := length_le_byteLength (t.drop i)
    rw [List.take_append_drop] at hsplit
    rw [List.length_drop] at hback
    omega
  · have hextra := getLast?_wideEnds 0 0 i t
    have hupTo : (ByteIndex.ofText t).extraUpTo (byteLength (t.take i)) + i
        = byteLength (t.take i) := by
      rw [ByteIndex.extraUpTo, ByteIndex.ofText]
      simp only [Nat.zero_add, hlen] at hextra
      cases hlast : List.getLast? _ <;>
      · rw [hlast] at hextra
        exact hextra
    omega

/-! ## Boundaries -/

/-- A byte offset in front of a character, or at the end of the text. -/
def Boundary (t : Text) (b : Int) : Prop := ∃ i ≤ t.length, b = byteLength (t.take i)

instance (t : Text) (b : Int) : Decidable (Boundary t b) :=
  inferInstanceAs (Decidable (∃ i ≤ t.length, b = byteLength (t.take i)))

variable {t : Text} {a b : Int}

/-- The index takes a boundary to an offset in the text. -/
theorem Boundary.toOffset_mem (h : Boundary t b) :
    0 ≤ (ByteIndex.ofText t).toOffset b ∧ (ByteIndex.ofText t).toOffset b ≤ t.length := by
  obtain ⟨i, hi, rfl⟩ := h
  rw [toOffset_byteLength hi]
  exact ⟨Int.natCast_nonneg _, Int.ofNat_le.2 hi⟩

/-- A boundary is found again from the character offset. -/
theorem Boundary.byteLength_take (h : Boundary t b) :
    (byteLength (t.take ((ByteIndex.ofText t).toOffset b).toNat) : Int) = b := by
  obtain ⟨i, hi, rfl⟩ := h
  rw [toOffset_byteLength hi]
  rfl

/-- **The index keeps the order of boundaries.** -/
theorem toOffset_le_iff (ha : Boundary t a) (hb : Boundary t b) :
    (ByteIndex.ofText t).toOffset a ≤ (ByteIndex.ofText t).toOffset b ↔ a ≤ b := by
  obtain ⟨i, hi, rfl⟩ := ha
  obtain ⟨j, hj, rfl⟩ := hb
  rw [toOffset_byteLength hi, toOffset_byteLength hj, Int.ofNat_le, Int.ofNat_le,
    byteLength_take_le_iff hi]

theorem toOffset_lt_iff (ha : Boundary t a) (hb : Boundary t b) :
    (ByteIndex.ofText t).toOffset a < (ByteIndex.ofText t).toOffset b ↔ a < b := by
  rw [← Int.not_le, ← Int.not_le, toOffset_le_iff hb ha]

/-! ## The bytes between boundaries -/

theorem encode_append (s t : Text) : encode (s ++ t) = encode s ++ encode t := by
  rw [encode, String.ofList_append]
  exact String.toByteArray_append

theorem size_encode (t : Text) : (encode t).size = byteLength t := by
  induction t with
  | nil => rfl
  | cons c t ih =>
    have hchar : (encode [c]).size = c.utf8Size := by
      rw [encode, ← String.singleton_eq_ofList, String.toUTF8_eq_toByteArray,
        String.size_toByteArray, String.utf8ByteSize_singleton]
    rw [← List.singleton_append, encode_append, ByteArray.size_append, ih, byteLength_append, hchar]
    rfl

/-- A part of a text is found again in the bytes. -/
theorem extract_encode_append (u s rest : Text) :
    (encode (u ++ (s ++ rest))).extract (byteLength u) (byteLength (u ++ s)) = encode s := by
  have hcut := ByteArray.extract_append_size_add (a := encode u) (b := encode s ++ encode rest)
    (i := 0) (j := (encode s).size)
  rw [encode_append, encode_append, byteLength_append, ← size_encode, ← size_encode,
    ← Nat.add_zero (encode u).size, Nat.add_assoc, Nat.zero_add, hcut,
    ByteArray.extract_append_eq_left rfl]

/-- What is left behind a part of a text. -/
theorem extract_encode_right (u rest : Text) :
    (encode (u ++ rest)).extract (byteLength u) (encode (u ++ rest)).size = encode rest := by
  rw [encode_append, ← size_encode]
  exact ByteArray.extract_append_eq_right rfl ByteArray.size_append

/-- **Bytes are cut where characters are cut.** -/
theorem extract_encode (t : Text) {i j : Nat} (hij : i ≤ j) :
    (encode t).extract (byteLength (t.take i)) (byteLength (t.take j)) = encode (t.slice i j) := by
  have hcut := extract_encode_append (t.take i) (t.slice i j) (t.drop j)
  rw [← List.append_assoc, take_append_slice t hij, List.take_append_drop] at hcut
  exact hcut

/-- **The bytes between boundaries** are those of the characters between them. -/
theorem Boundary.decode?_extract (ha : Boundary t a) (hb : Boundary t b) (hab : a ≤ b) :
    decode? ((encode t).extract a.toNat b.toNat)
      = some (t.slice ((ByteIndex.ofText t).toOffset a) ((ByteIndex.ofText t).toOffset b)) := by
  have hle := (toOffset_le_iff ha hb).2 hab
  obtain ⟨i, hi, rfl⟩ := ha
  obtain ⟨j, hj, rfl⟩ := hb
  rw [toOffset_byteLength hi, toOffset_byteLength hj] at hle ⊢
  rw [Int.toNat_natCast, Int.toNat_natCast, extract_encode t (Int.ofNat_le.1 hle), decode?_encode]

/-- **Byte offsets convert exactly.**  The index takes the length of a prefix in bytes to its length
in characters.  It ascends strictly along the boundaries, and what it cuts out of the text between
two of them is what the bytes between them say.  It leaves offsets as they are iff the text is
ASCII, and the ends that it searches ascend. -/
theorem toOffset_exact (t : Text) :
    (∀ i ≤ t.length, (ByteIndex.ofText t).toOffset (encode (t.take i)).size = i) ∧
      (∀ a b, Boundary t a → Boundary t b → a < b →
        (ByteIndex.ofText t).toOffset a < (ByteIndex.ofText t).toOffset b) ∧
      (∀ a b, Boundary t a → Boundary t b → a ≤ b →
        decode? ((encode t).extract a.toNat b.toNat) = some
          (t.slice ((ByteIndex.ofText t).toOffset a) ((ByteIndex.ofText t).toOffset b))) ∧
      ((ByteIndex.ofText t).plain = true ↔ ∀ c ∈ t, c.toNat ≤ 0x7f) ∧
      (ByteIndex.ofText t).wide.Pairwise fun w v => w.stop < v.stop := by
  refine ⟨fun i hi => ?_, fun a b ha hb hab => (toOffset_lt_iff ha hb).2 hab,
    fun a b ha hb hab => ha.decode?_extract hb hab, ?_, pairwise_wideEnds 0 0 t⟩
  · rw [size_encode]
    exact toOffset_byteLength hi
  · rw [ByteIndex.ofText, decide_eq_true_iff]
    exact byteLength_eq_length_iff

/-- Characters of one to four bytes, the wide ones side by side. -/
def sideBySide : Text := "aé→🚀🚀ñ".toList

theorem toOffset_exact_sideBySide :
    (ByteIndex.ofText sideBySide).toOffset (encode (sideBySide.take 4)).size = 4 ∧
      (ByteIndex.ofText sideBySide).toOffset 6 < (ByteIndex.ofText sideBySide).toOffset 10 ∧
      decode? ((encode sideBySide).extract 3 14) = some "→🚀🚀".toList ∧
      (ByteIndex.ofText sideBySide).plain = false := by
  obtain ⟨hexact, hlt, hdecode, hplain, -⟩ := toOffset_exact sideBySide
  refine ⟨hexact 4 (by decide), hlt 6 10 (by decide) (by decide) (by decide), ?_, ?_⟩
  · exact (hdecode 3 14 (by decide) (by decide) (by decide)).trans (by decide)
  · rw [← Bool.not_eq_true, hplain]
    exact fun hascii => absurd (hascii 'é' (by decide)) (by decide)

end Sigil.Text
