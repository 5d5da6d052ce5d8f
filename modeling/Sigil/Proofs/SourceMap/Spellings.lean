import Mathlib.Algebra.Group.Nat.Defs
import Sigil.Proofs.SourceMap.Vlq

/-!
# Proofs/SourceMap/Spellings — values have many spellings, and one shortest

    decode s = vs,  decode t = ws   ⟹   decode (s ++ t) = vs ++ ws
    decode s = vs                   ⟹   |encode vs| ≤ |s|

A text decodes if it is made of digits and does not break off inside a value (`decode_fails_iff`).
A reader that has come to the end of a value knows nothing of what it has read, so texts are decoded
part by part (`decode_append`).  Digits may be wasted on empty groups and on the sign of zero; what
is written wastes none, for `k` digits cannot hold a number of more than `5 * k` bits.
-/

namespace Sigil.Vlq

/-! ## Digit by digit -/

/-- The base-64 digits in order. -/
def digits : Text := "ABCDEFGHIJKLMNOPQRSTUVWXYZabcdefghijklmnopqrstuvwxyz0123456789+/".toList

theorem digits_eq : digits = (List.range 64).map digit := by decide

theorem digit_of_digitValue? {c : Char} {d : Nat} (h : digitValue? c = some d) :
    d < 64 ∧ digit d = c := by
  have hcode : ∀ {a b : Char}, a ≤ c ∧ c ≤ b → a.toNat ≤ c.toNat ∧ c.toNat ≤ b.toNat := fun h => h
  have hback : ∀ n, n = c.toNat → Char.ofNat n = c := fun n hn => hn ▸ Char.ofNat_toNat c
  unfold digitValue? at h
  split at h
  next hc =>
    obtain ⟨hlow, hhigh⟩ := hcode hc
    simp only [Option.some.injEq, Char.reduceToNat] at h hlow hhigh
    rw [digit, if_pos (by omega)]
    exact ⟨by omega, hback _ (by omega)⟩
  split at h
  next hc =>
    obtain ⟨hlow, hhigh⟩ := hcode hc
    simp only [Option.some.injEq, Char.reduceToNat] at h hlow hhigh
    rw [digit, if_neg (by omega), if_pos (by omega)]
    exact ⟨by omega, hback _ (by omega)⟩
  split at h
  next hc =>
    obtain ⟨hlow, hhigh⟩ := hcode hc
    simp only [Option.some.injEq, Char.reduceToNat] at h hlow hhigh
    rw [digit, if_neg (by omega), if_neg (by omega), if_pos (by omega)]
    exact ⟨by omega, hback _ (by omega)⟩
  split at h
  next hc =>
    obtain rfl := Option.some.inj h
    exact ⟨by decide, hc.symm⟩
  split at h
  next hc =>
    obtain rfl := Option.some.inj h
    exact ⟨by decide, hc.symm⟩
  next => cases h

/-- **A digit's number is its place.** -/
theorem digitValue?_eq_some {c : Char} {d : Nat} :
    digitValue? c = some d ↔ digits[d]? = some c := by
  rw [digits_eq, List.getElem?_map, Option.map_eq_some_iff]
  constructor
  · intro h
    obtain ⟨hd, rfl⟩ := digit_of_digitValue? h
    exact ⟨d, List.getElem?_range hd, rfl⟩
  · rintro ⟨e, he, rfl⟩
    obtain ⟨hd, rfl⟩ := List.getElem?_eq_some_iff.1 he
    rw [List.getElem_range]
    exact digitValue?_digit d (by simpa using hd)

theorem mem_digits {c : Char} : c ∈ digits ↔ ∃ d, digitValue? c = some d := by
  simp only [digitValue?_eq_some, List.mem_iff_getElem?]

/-- The digits from the 32nd on are those after which a value goes on. -/
theorem mem_drop_digits {c : Char} : c ∈ digits.drop 32 ↔ ∃ d, digitValue? c = some d ∧ 32 ≤ d := by
  rw [List.mem_iff_getElem?]
  constructor
  · rintro ⟨i, hi⟩
    rw [List.getElem?_drop] at hi
    exact ⟨32 + i, digitValue?_eq_some.2 hi, Nat.le_add_right 32 i⟩
  · rintro ⟨d, hd, hle⟩
    refine ⟨d - 32, ?_⟩
    rw [List.getElem?_drop, Nat.add_sub_cancel' hle]
    exact digitValue?_eq_some.1 hd

section

variable {segment : Text} {n shift : Nat} {vs : List Int}

theorem decodeFrom_nil_eq_ok : decodeFrom segment n shift [] = .ok vs ↔ shift = 0 ∧ vs = [] := by
  rw [decodeFrom]
  split <;> simp_all [eq_comm]

/-- **One more digit**: it ends its value, or this goes on. -/
theorem decodeFrom_cons_eq_ok {c : Char} {s : Text} :
    decodeFrom segment n shift (c :: s) = .ok vs ↔ ∃ d, digitValue? c = some d ∧
      ((d < 32 ∧ ∃ ws, decodeFrom segment 0 0 s = .ok ws ∧ vs = unfold (n + d <<< shift) :: ws) ∨
        (32 ≤ d ∧ decodeFrom segment (n + (d % 32) <<< shift) (shift + 5) s = .ok vs)) := by
  rw [decodeFrom]
  cases digitValue? c with
  | none => simp
  | some d =>
    simp only [Option.some.injEq, exists_eq_left']
    rcases Nat.lt_or_ge d 32 with hd | hd
    · have hends : ¬32 ≤ d := Nat.not_le.2 hd
      rw [if_neg hends, Nat.mod_eq_of_lt hd]
      cases decodeFrom segment 0 0 s <;> simp [hd, hends, eq_comm]
    · have hgoes : ¬d < 32 := Nat.not_lt.2 hd
      simp [hd, hgoes]

/-- What decodes is made of digits and ends with a value. -/
theorem exists_decodeFrom_eq_ok {s : Text} :
    (∃ vs, decodeFrom segment n shift s = .ok vs) ↔ (∀ c ∈ s, c ∈ digits) ∧
      (∀ c ∈ s.getLast?, c ∉ digits.drop 32) ∧ (s = [] → shift = 0) := by
  induction s generalizing n shift with
  | nil => simp [decodeFrom_nil_eq_ok]
  | cons c s ih =>
    have hstep : (∃ vs, decodeFrom segment n shift (c :: s) = .ok vs) ↔
        ∃ d, digitValue? c = some d ∧ ((d < 32 ∧ ∃ ws, decodeFrom segment 0 0 s = .ok ws) ∨
          (32 ≤ d ∧ ∃ vs, decodeFrom segment (n + (d % 32) <<< shift) (shift + 5) s = .ok vs)) := by
      simp only [decodeFrom_cons_eq_ok]
      grind
    have hlast : (∀ b ∈ (c :: s).getLast?, b ∉ digits.drop 32) ↔
        (s = [] → c ∉ digits.drop 32) ∧ ∀ b ∈ s.getLast?, b ∉ digits.drop 32 := by
      cases s <;> simp [List.getLast?_cons]
    rw [hstep, hlast, List.forall_mem_cons, mem_digits, mem_drop_digits]
    simp only [ih]
    grind

end

/-- **A text is refused** if it holds a character that is no digit or ends inside a value. -/
theorem decode_fails_iff {s : Text} : (∃ f, decode s = .error f) ↔
    (∃ c ∈ s, c ∉ digits) ∨ ∃ c ∈ s.getLast?, c ∈ digits.drop 32 := by
  have hok : (∃ vs, decode s = .ok vs) ↔ _ := exists_decodeFrom_eq_ok
  have hfails : (∃ f, decode s = .error f) ↔ ¬∃ vs, decode s = .ok vs := by
    cases decode s <;> simp
  rw [hfails, hok]
  grind

/-! ## Part by part -/

/-- A flaw of a part, reported for the whole segment. -/
def Flaw.within (segment : Text) : Flaw → Flaw
  | .character c _ => .character c segment
  | .truncated _ => .truncated segment

/-- The segment is there for the report only. -/
theorem decodeFrom_within (segment label : Text) (n shift : Nat) (t : Text) :
    decodeFrom label n shift t = (decodeFrom segment n shift t).mapError (·.within label) := by
  induction t generalizing n shift with
  | nil =>
    rw [decodeFrom, decodeFrom]
    split <;> rfl
  | cons c t ih =>
    rw [decodeFrom, decodeFrom]
    cases digitValue? c with
    | none => rfl
    | some d =>
      simp only
      split
      · exact ih _ _
      · rw [ih]
        cases decodeFrom segment 0 0 t <;> rfl

/-- What follows values that are at their end is read on its own. -/
theorem decodeFrom_append {segment s : Text} {vs : List Int} {n shift : Nat}
    (hfresh : shift = 0 → n = 0) (h : decodeFrom segment n shift s = .ok vs) (label t : Text) :
    decodeFrom label n shift (s ++ t) = (decodeFrom label 0 0 t).map (vs ++ ·) := by
  induction s generalizing n shift vs with
  | nil =>
    obtain ⟨hshift, rfl⟩ := decodeFrom_nil_eq_ok.1 h
    rw [hshift, hfresh hshift, List.nil_append]
    cases decodeFrom label 0 0 t <;> rfl
  | cons c s ih =>
    obtain ⟨d, hd, ⟨hlt, ws, hs, rfl⟩ | ⟨hle, hs⟩⟩ := decodeFrom_cons_eq_ok.1 h
    · rw [List.cons_append, decodeFrom, hd]
      simp only [if_neg (Nat.not_le.2 hlt), Nat.mod_eq_of_lt hlt, ih (fun _ => rfl) hs]
      cases decodeFrom label 0 0 t <;> rfl
    · rw [List.cons_append, decodeFrom, hd]
      simp only [if_pos hle]
      exact ih (fun hshift => absurd hshift (Nat.succ_ne_zero _)) hs

/-- **A text is decoded part by part**: behind a part that decodes, the values of the rest follow,
or the flaw of the rest is the flaw of the whole. -/
theorem decode_append {s : Text} {vs : List Int} (h : decode s = .ok vs) (t : Text) :
    decode (s ++ t) = ((decode t).map (vs ++ ·)).mapError (·.within (s ++ t)) := by
  rw [decode, decodeFrom_append (fun _ => rfl) h, decodeFrom_within t, decode]
  cases decodeFrom t 0 0 t <;> rfl

/-! ## Written values -/

theorem encode_injective : Function.Injective encode := by
  intro vs ws h
  have hdecode := congrArg decode h
  rw [decode_encode, decode_encode] at hdecode
  exact Except.ok.inj hdecode

theorem encode_singleton (v : Int) : encode [v] = encodeValue v := List.flatMap_singleton _ v

/-- **No written value starts another one.** -/
theorem eq_of_encodeValue_prefix {v w : Int} (h : encodeValue v <+: encodeValue w) : v = w := by
  obtain ⟨t, ht⟩ := h
  have hv : decode (encodeValue v) = .ok [v] := encode_singleton v ▸ decode_encode [v]
  have hw : decode (encodeValue w) = .ok [w] := encode_singleton w ▸ decode_encode [w]
  rw [← ht, decode_append hv] at hw
  cases hrest : decode t with
  | error f =>
    rw [hrest] at hw
    cases hw
  | ok ws =>
    rw [hrest] at hw
    exact (List.cons.inj (Except.ok.inj hw)).1

/-! ## The shortest spelling -/

/-- Negative zero loses its sign; no other number changes. -/
theorem fold_unfold_le (n : Nat) : fold (unfold n) ≤ n := by
  unfold fold unfold
  split <;> split <;> omega

/-- A number of `5 * (k + 1)` bits has at most `k + 1` groups. -/
theorem length_groups_le {k n : Nat} (h : n < 32 ^ (k + 1)) : (groups n).length ≤ k + 1 := by
  induction k generalizing n with
  | zero =>
    rw [groups_of_lt (by simpa using h)]
    exact Nat.le_refl 1
  | succ k ih =>
    rcases Nat.lt_or_ge n 32 with hn | hn
    · rw [groups_of_lt hn]
      exact Nat.le_add_left 1 _
    · have hrest : n / 32 < 32 ^ (k + 1) :=
        Nat.div_lt_of_lt_mul (by rwa [Nat.pow_succ, Nat.mul_comm] at h)
      rw [groups_of_le hn, List.length_cons]
      exact Nat.succ_le_succ (ih hrest)

/-- A group behind `k` others makes a number of `5 * (k + 1)` bits. -/
theorem add_shiftLeft_lt {n k : Nat} (h : n < 32 ^ k) {d : Nat} (hd : d < 32) :
    n + d <<< (5 * k) < 32 ^ (k + 1) := by
  have hpow : 2 ^ (5 * k) = 32 ^ k := Nat.pow_mul 2 5 k
  calc n + d <<< (5 * k)
      = n + d * 32 ^ k := by rw [Nat.shiftLeft_eq, hpow]
    _ < 32 ^ k + d * 32 ^ k := Nat.add_lt_add_right h _
    _ = (d + 1) * 32 ^ k := by rw [Nat.add_mul, Nat.one_mul, Nat.add_comm]
    _ ≤ 32 * 32 ^ k := Nat.mul_le_mul_right _ hd
    _ = 32 ^ (k + 1) := by rw [Nat.pow_succ, Nat.mul_comm]

/-- What is decoded after `k` groups of a value takes no more digits than these and the text. -/
theorem length_encode_le_of_decodeFrom {segment s : Text} {vs : List Int} {n k : Nat}
    (hn : n < 32 ^ k) (h : decodeFrom segment n (5 * k) s = .ok vs) :
    (encode vs).length ≤ k + s.length := by
  induction s generalizing n k vs with
  | nil =>
    obtain ⟨-, rfl⟩ := decodeFrom_nil_eq_ok.1 h
    exact Nat.zero_le _
  | cons c s ih =>
    rw [List.length_cons]
    obtain ⟨d, -, ⟨hlt, ws, hs, rfl⟩ | ⟨-, hs⟩⟩ := decodeFrom_cons_eq_ok.1 h
    · have hrest : (encode ws).length ≤ 0 + s.length := ih Nat.one_pos hs
      have hfirst : (groups (fold (unfold (n + d <<< (5 * k))))).length ≤ k + 1 :=
        length_groups_le (Nat.lt_of_le_of_lt (fold_unfold_le _) (add_shiftLeft_lt hn hlt))
      rw [encode_cons, List.length_append, List.length_map]
      omega
    · have hrest := ih (k := k + 1) (add_shiftLeft_lt hn (Nat.mod_lt d (by decide))) hs
      omega

/-- **Encoding is undone by decoding, and nothing shorter decodes to the same.**  Every list of
integers is read back from its digits.  Texts are decoded part by part, so no two lists are written
alike and no written value starts another one.  No text that decodes to some values is shorter than
what is written for them. -/
theorem encode_shortest :
    (∀ vs, decode (encode vs) = .ok vs) ∧
    (∀ s t vs, decode s = .ok vs →
      decode (s ++ t) = ((decode t).map (vs ++ ·)).mapError (·.within (s ++ t))) ∧
    Function.Injective encode ∧
    (∀ v w, encodeValue v <+: encodeValue w → v = w) ∧
    ∀ s vs, decode s = .ok vs → (encode vs).length ≤ s.length := by
  refine ⟨decode_encode, fun s t vs h => decode_append h t, encode_injective,
    fun v w => eq_of_encodeValue_prefix, fun s vs h => ?_⟩
  have hlength := length_encode_le_of_decodeFrom (k := 0) Nat.one_pos h
  rwa [Nat.zero_add] at hlength

/-- A wasted group and a negative zero, in front of more values and of both flaws. -/
theorem encode_shortest_wasteful :
    decode "gAB".toList = .ok [0, 0] ∧
      decode "gABgBC".toList = .ok ([0, 0] ++ [16, 1]) ∧
      decode "gABC*".toList = .error (.character '*' "gABC*".toList) ∧
      decode "gABCg".toList = .error (.truncated "gABCg".toList) ∧
      (encode [0, 0]).length ≤ "gAB".toList.length ∧ encode [0, 0] = "AA".toList := by
  obtain ⟨-, happend, -, -, hshort⟩ := encode_shortest
  have h : decode "gAB".toList = .ok [0, 0] := rfl
  exact ⟨h, happend _ "gBC".toList _ h, happend _ "C*".toList _ h, happend _ "Cg".toList _ h,
    hshort _ _ h, by with_unfolding_all rfl⟩

end Sigil.Vlq
