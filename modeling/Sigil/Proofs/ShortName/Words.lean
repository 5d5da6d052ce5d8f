import Mathlib.Logic.Function.Basic
import Sigil.ShortName

/-!
# Proofs/ShortName/Words — no two indices share a name

A word of one letter is a number below 52; a longer word ends in the letter of `n % 52` and starts
with the word of `n / 52 - 1`.  Reading a word from its end therefore gives its number back.
-/

namespace Sigil.ShortName

/-- The code points of the letters: two runs, `a … z` and `A … Z`. -/
theorem toNat_letter : ∀ d < 52, (letter d).toNat = if d < 26 then 97 + d else 39 + d := by
  decide

theorem letter_inj {d e : Nat} (hd : d < 52) (he : e < 52) (h : letter d = letter e) : d = e := by
  have hcode : (letter d).toNat = (letter e).toNat := congrArg Char.toNat h
  rw [toNat_letter d hd, toNat_letter e he] at hcode
  split at hcode <;> split at hcode <;> omega

theorem word_of_lt {n : Nat} (h : n < 52) : word n = [letter n] := by
  rw [word, if_pos h]

theorem word_of_le {n : Nat} (h : 52 ≤ n) :
    word n = word (n / 52 - 1) ++ [letter (n % 52)] := by
  rw [word, if_neg (Nat.not_lt.2 h)]

theorem word_ne_nil (n : Nat) : word n ≠ [] := by
  rw [word]
  split
  · exact List.cons_ne_nil _ _
  · exact List.concat_ne_nil _ _

/-- A word of one letter is no longer word. -/
theorem word_ne_of_lt_of_le {m n : Nat} (hm : m < 52) (hn : 52 ≤ n) : word m ≠ word n := by
  intro h
  rw [word_of_lt hm, word_of_le hn] at h
  have hlen : (word (n / 52 - 1)).length = 0 := by
    simpa using (congrArg List.length h).symm
  exact word_ne_nil _ (List.length_eq_zero_iff.1 hlen)

/-- **Words are told apart by their numbers.** -/
theorem word_injective : Function.Injective word := by
  intro m
  induction m using Nat.strongRecOn with
  | ind m ih =>
    intro n h
    rcases Nat.lt_or_ge m 52 with hm | hm <;> rcases Nat.lt_or_ge n 52 with hn | hn
    · rw [word_of_lt hm, word_of_lt hn] at h
      exact letter_inj hm hn (List.singleton_inj.1 h)
    · exact absurd h (word_ne_of_lt_of_le hm hn)
    · exact absurd h.symm (word_ne_of_lt_of_le hn hm)
    · rw [word_of_le hm, word_of_le hn] at h
      obtain ⟨hfront, hlast⟩ := List.append_inj' h rfl
      have hquot : m / 52 - 1 = n / 52 - 1 := ih _ (by omega) hfront
      have hrem : m % 52 = n % 52 :=
        letter_inj (Nat.mod_lt _ (by omega)) (Nat.mod_lt _ (by omega)) (List.singleton_inj.1 hlast)
      omega

/-- **No two indices share a short name.** -/
theorem name_injective : Function.Injective name := by
  intro m n h
  exact word_injective (List.cons.inj h).2

/-! ## Plain letters -/

theorem letter_lt (d : Nat) (hd : d < 52) : (letter d).toNat < 128 := by
  rw [toNat_letter d hd]
  split <;> omega

/-- Words are made of letters. -/
theorem exists_letter_of_mem_word {n : Nat} {c : Char} (h : c ∈ word n) :
    ∃ d < 52, c = letter d := by
  fun_induction word n with
  | case1 n hn => exact ⟨n, hn, List.mem_singleton.1 h⟩
  | case2 n _ ih =>
    rcases List.mem_append.1 h with h | h
    · exact ih h
    · exact ⟨n % 52, Nat.mod_lt _ (by omega), List.mem_singleton.1 h⟩

/-- **Short names are ASCII.** -/
theorem name_lt {n : Nat} {c : Char} (h : c ∈ name n) : c.toNat < 128 := by
  rcases List.mem_cons.1 h with rfl | h
  · decide
  · obtain ⟨d, hd, rfl⟩ := exists_letter_of_mem_word h
    exact letter_lt d hd

/-- A character that is neither the sign of short names nor a letter is in no short name. -/
theorem notMem_name {c : Char} (hsign : c ≠ sign) (hletter : ∀ d < 52, c ≠ letter d) (n : Nat) :
    c ∉ name n := by
  intro h
  rcases List.mem_cons.1 h with h | h
  · exact hsign h
  · obtain ⟨d, hd, hc⟩ := exists_letter_of_mem_word h
    exact hletter d hd hc

/-- **No short name holds the sign of private names.** -/
theorem hash_notMem_name (n : Nat) : '#' ∉ name n := notMem_name (by decide) (by decide) n

/-- No short name ends a line. -/
theorem carriageReturn_notMem_name (n : Nat) : '\r' ∉ name n :=
  notMem_name (by decide) (by decide) n

end Sigil.ShortName
