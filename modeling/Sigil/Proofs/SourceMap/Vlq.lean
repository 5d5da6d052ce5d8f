import Mathlib.Algebra.Group.Nat.Defs
import Sigil.SourceMap.Vlq

/-!
# Proofs/SourceMap/Vlq — what is written as digits is read back

    decode (encode vs)  =  vs

A value's groups end at the first one below 32, so the reader knows where the next value starts
whatever follows (`decodeFrom_groups`).  No digit is a comma or a semicolon; the segments and lines
of a map can be told apart for that reason.
-/

namespace Sigil.Vlq

/-! ## Digits -/

theorem digitValue?_digit : ∀ d < 64, digitValue? (digit d) = some d := by
  decide

theorem digit_ne_comma : ∀ d < 64, digit d ≠ ',' := by
  decide

theorem digit_ne_semicolon : ∀ d < 64, digit d ≠ ';' := by
  decide

/-! ## Groups -/

theorem groups_of_lt {n : Nat} (h : n < 32) : groups n = [n] := by
  rw [groups, if_pos h]

theorem groups_of_le {n : Nat} (h : 32 ≤ n) : groups n = (n % 32 + 32) :: groups (n / 32) := by
  rw [groups, if_neg (Nat.not_lt.2 h)]

theorem groups_ne_nil (n : Nat) : groups n ≠ [] := by
  rw [groups]
  split <;> exact List.cons_ne_nil _ _

/-- The groups of a power of 32 are empty but for the last. -/
theorem groups_pow (k : Nat) : groups (32 ^ k) = List.replicate k 32 ++ [1] := by
  induction k with
  | zero => exact groups_of_lt (by decide)
  | succ k ih =>
    have hle : 32 ≤ 32 ^ (k + 1) := Nat.le_self_pow (Nat.succ_ne_zero k) 32
    have hdiv : 32 ^ (k + 1) / 32 = 32 ^ k := by
      rw [Nat.pow_succ, Nat.mul_div_cancel _ (by decide)]
    have hmod : 32 ^ (k + 1) % 32 = 0 := by rw [Nat.pow_succ, Nat.mul_mod_left]
    rw [groups_of_le hle, hdiv, hmod, ih]
    rfl

/-- Every group has a digit. -/
theorem lt_of_mem_groups (n : Nat) : ∀ d ∈ groups n, d < 64 := by
  induction n using Nat.strongRecOn with
  | ind n ih =>
    intro d hd
    rcases Nat.lt_or_ge n 32 with h | h
    · rw [groups_of_lt h, List.mem_singleton] at hd
      omega
    · rw [groups_of_le h, List.mem_cons] at hd
      rcases hd with rfl | hd
      · omega
      · exact ih _ (by omega) d hd

theorem unfold_fold (v : Int) : unfold (fold v) = v := by
  unfold unfold fold
  split <;> split <;> omega

/-! ## Segments -/

theorem encode_cons (v : Int) (vs : List Int) :
    encode (v :: vs) = (groups (fold v)).map digit ++ encode vs := by
  rw [encode, List.flatMap_cons, encodeValue, ← encode]

theorem encode_ne_nil {vs : List Int} (h : vs ≠ []) : encode vs ≠ [] := by
  obtain ⟨v, vs, rfl⟩ := List.exists_cons_of_ne_nil h
  rw [encode_cons]
  exact List.append_ne_nil_of_left_ne_nil
    (fun hnil => groups_ne_nil _ (List.map_eq_nil_iff.1 hnil)) _

/-- The characters of a segment are digits. -/
theorem exists_digit_of_mem_encode {vs : List Int} {c : Char} (h : c ∈ encode vs) :
    ∃ d < 64, c = digit d := by
  obtain ⟨v, -, hc⟩ := List.mem_flatMap.1 h
  obtain ⟨d, hd, rfl⟩ := List.mem_map.1 hc
  exact ⟨d, lt_of_mem_groups _ d hd, rfl⟩

theorem comma_notMem_encode (vs : List Int) : ',' ∉ encode vs := by
  intro h
  obtain ⟨d, hd, hc⟩ := exists_digit_of_mem_encode h
  exact digit_ne_comma d hd hc.symm

theorem semicolon_notMem_encode (vs : List Int) : ';' ∉ encode vs := by
  intro h
  obtain ⟨d, hd, hc⟩ := exists_digit_of_mem_encode h
  exact digit_ne_semicolon d hd hc.symm

/-- A group with 32 added goes on. -/
theorem decodeFrom_digit_of_le (segment : Text) (n shift : Nat) {d : Nat} (hd : d < 64)
    (h : 32 ≤ d) (rest : Text) : decodeFrom segment n shift (digit d :: rest)
      = decodeFrom segment (n + (d % 32) <<< shift) (shift + 5) rest := by
  rw [decodeFrom, digitValue?_digit d hd]
  exact if_pos h

/-- Any other group ends its value. -/
theorem decodeFrom_digit_of_lt (segment : Text) (n shift : Nat) {d : Nat} (h : d < 32) {rest : Text}
    {vs : List Int} (hrest : decodeFrom segment 0 0 rest = .ok vs) :
    decodeFrom segment n shift (digit d :: rest) = .ok (unfold (n + d <<< shift) :: vs) := by
  rw [decodeFrom, digitValue?_digit d (Nat.lt_trans h (by decide)), hrest]
  simp only [Nat.mod_eq_of_lt h, if_neg (Nat.not_le.2 h)]

/-- **One value is read off**, and then what follows. -/
theorem decodeFrom_groups (segment : Text) (m : Nat) : ∀ (n shift : Nat) {rest : Text}
    {vs : List Int}, decodeFrom segment 0 0 rest = .ok vs →
      decodeFrom segment n shift ((groups m).map digit ++ rest)
        = .ok (unfold (n + m <<< shift) :: vs) := by
  induction m using Nat.strongRecOn with
  | ind m ih =>
    intro n shift rest vs hrest
    rcases Nat.lt_or_ge m 32 with h | h
    · rw [groups_of_lt h, List.map_singleton, List.singleton_append]
      exact decodeFrom_digit_of_lt segment n shift h hrest
    · have hvalue : n + (m % 32) <<< shift + (m / 32) <<< (shift + 5) = n + m <<< shift := by
        calc n + (m % 32) <<< shift + (m / 32) <<< (shift + 5)
            = n + (m % 32 * 2 ^ shift + m / 32 * (2 ^ shift * 32)) := by
              rw [Nat.shiftLeft_eq, Nat.shiftLeft_eq, Nat.pow_add, Nat.add_assoc]
          _ = n + (m % 32 + 32 * (m / 32)) * 2 ^ shift := by
              rw [Nat.add_mul, Nat.mul_comm 32, Nat.mul_assoc (m / 32), Nat.mul_comm 32]
          _ = n + m <<< shift := by rw [Nat.mod_add_div, Nat.shiftLeft_eq]
      have hlow : (m % 32 + 32) % 32 = m % 32 := by omega
      rw [groups_of_le h, List.map_cons, List.cons_append,
        decodeFrom_digit_of_le segment n shift (by omega) (Nat.le_add_left 32 _), hlow,
        ih _ (by omega) _ _ hrest, hvalue]

theorem decodeFrom_encode (segment : Text) (vs : List Int) :
    decodeFrom segment 0 0 (encode vs) = .ok vs := by
  induction vs with
  | nil => rfl
  | cons v vs ih =>
    rw [encode_cons, decodeFrom_groups segment _ 0 0 ih, Nat.zero_add, Nat.shiftLeft_zero,
      unfold_fold]

/-- **Decoding undoes encoding.** -/
theorem decode_encode (vs : List Int) : decode (encode vs) = .ok vs :=
  decodeFrom_encode _ vs

end Sigil.Vlq
