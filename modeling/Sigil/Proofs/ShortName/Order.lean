import Mathlib.Data.List.Induction
import Mathlib.Data.List.Shortlex
import Mathlib.Data.Set.Function
import Sigil.Proofs.ShortName.Words

/-!
# Proofs/ShortName/Order — short names come in order of length, and none is left out

    0 ↦ $a,  …,  51 ↦ $Z,  52 ↦ $aa,  …,  2755 ↦ $ZZ,  2756 ↦ $aaa,  …

A word of one letter is its letter's number, and `w ++ [letter d]` is the word of `52 * (n + 1) + d`
where `w` is that of `n`: every word has a number (`exists_word`).  Of two numbers the smaller has
the smaller quotient or, with equal quotients, the smaller remainder; of their words, accordingly,
it has the front that comes first or, behind equal fronts, the letter that does
(`before_word_of_lt`).
-/

namespace Sigil.ShortName

/-! ## Letters -/

/-- The letters in order. -/
def letters : Text := "abcdefghijklmnopqrstuvwxyzABCDEFGHIJKLMNOPQRSTUVWXYZ".toList

theorem letters_eq : letters = (List.range 52).map letter := by decide

theorem mem_letters {c : Char} : c ∈ letters ↔ ∃ d < 52, letter d = c := by
  simp only [letters_eq, List.mem_map, List.mem_range]

theorem idxOf_letter : ∀ d < 52, letters.idxOf (letter d) = d := by decide

/-- A letter comes before those behind it. -/
def Precedes (c d : Char) : Prop := letters.idxOf c < letters.idxOf d

instance : Std.Asymm Precedes := ⟨fun _ _ h => Nat.lt_asymm h⟩

/-- **Shorter texts come first**, texts of one length by their first different letters. -/
def Before : Text → Text → Prop := List.Shortlex Precedes

instance : Std.Asymm Before := inferInstanceAs (Std.Asymm (List.Shortlex Precedes))

instance : Std.Irrefl Before := inferInstance

theorem precedes_letter {d e : Nat} (hd : d < 52) (he : e < 52) :
    Precedes (letter d) (letter e) ↔ d < e := by
  rw [Precedes, idxOf_letter d hd, idxOf_letter e he]

/-! ## Words -/

/-- **Every word has a number.** -/
theorem exists_word {w : Text} (hne : w ≠ []) (hw : ∀ c ∈ w, c ∈ letters) : ∃ n, word n = w := by
  induction w using List.reverseRecOn with
  | nil => exact absurd rfl hne
  | append_singleton w c ih =>
    obtain ⟨hfront, hlast⟩ := List.forall_mem_append.1 hw
    obtain ⟨d, hd, rfl⟩ := mem_letters.1 (hlast c List.mem_cons_self)
    by_cases hempty : w = []
    · exact ⟨d, by rw [word_of_lt hd, hempty, List.nil_append]⟩
    · obtain ⟨n, rfl⟩ := ih hempty hfront
      have hquot : (52 * (n + 1) + d) / 52 - 1 = n := by omega
      have hrem : (52 * (n + 1) + d) % 52 = d := by omega
      exact ⟨52 * (n + 1) + d, by rw [word_of_le (by omega), hquot, hrem]⟩

theorem letter_mem_letters {d : Nat} (hd : d < 52) : letter d ∈ letters :=
  mem_letters.2 ⟨d, hd, rfl⟩

theorem mem_letters_of_mem_word {n : Nat} {c : Char} (h : c ∈ word n) : c ∈ letters := by
  obtain ⟨d, hd, rfl⟩ := exists_letter_of_mem_word h
  exact letter_mem_letters hd

/-- The order of two texts of one length is that of whatever longer texts they start. -/
theorem lex_append {r : Char → Char → Prop} {s t : Text} (h : List.Lex r s t)
    (hlength : s.length = t.length) (a b : Text) : List.Lex r (s ++ a) (t ++ b) := by
  induction h with
  | nil => cases hlength
  | rel h => exact .rel h
  | cons _ ih => exact .cons (ih (Nat.succ.inj hlength))

theorem Before.concat {s t : Text} (h : Before s t) (c d : Char) :
    Before (s ++ [c]) (t ++ [d]) := by
  rcases List.shortlex_def.1 h with hlt | ⟨hlength, hlex⟩
  · refine .of_length_lt ?_
    rw [List.length_append, List.length_append]
    exact Nat.add_lt_add_right hlt 1
  · refine .of_lex ?_ (lex_append hlex hlength _ _)
    rw [List.length_append, List.length_append, hlength]
    rfl

/-- **Words come in the order of their numbers.** -/
theorem before_word_of_lt {m n : Nat} (h : m < n) : Before (word m) (word n) := by
  induction m using Nat.strongRecOn generalizing n with
  | ind m ih =>
    have hm : m % 52 < 52 := Nat.mod_lt _ (by decide)
    have hn : n % 52 < 52 := Nat.mod_lt _ (by decide)
    rcases Nat.lt_or_ge n 52 with hshort | hlong
    · rw [word_of_lt (Nat.lt_trans h hshort), word_of_lt hshort]
      exact (List.shortlex_singleton_iff _ _).2
        ((precedes_letter (Nat.lt_trans h hshort) hshort).2 h)
    rcases Nat.lt_or_ge m 52 with hone | hmore
    · refine .of_length_lt ?_
      rw [word_of_lt hone, word_of_le hlong, List.length_append, List.length_singleton]
      exact Nat.lt_add_of_pos_left (List.length_pos_iff.2 (word_ne_nil _))
    rw [word_of_le hmore, word_of_le hlong]
    rcases Nat.lt_or_ge (m / 52 - 1) (n / 52 - 1) with hquot | hquot
    · exact (ih _ (by omega) hquot).concat _ _
    · -- equal quotients, so the remainders decide
      have hsame : m / 52 - 1 = n / 52 - 1 := by omega
      rw [hsame]
      refine List.Shortlex.append_left ((List.shortlex_singleton_iff _ _).2 ?_) _
      exact (precedes_letter hm hn).2 (by omega)

/-! ## Names -/

/-- The sign of short names, and one or more letters. -/
def IsShortName (s : Text) : Prop := ∃ w, w ≠ [] ∧ (∀ c ∈ w, c ∈ letters) ∧ s = sign :: w

theorem isShortName_name (n : Nat) : IsShortName (name n) :=
  ⟨word n, word_ne_nil n, fun _ => mem_letters_of_mem_word, rfl⟩

theorem IsShortName.exists_name {s : Text} (h : IsShortName s) : ∃ n, name n = s := by
  obtain ⟨w, hne, hw, rfl⟩ := h
  obtain ⟨n, rfl⟩ := exists_word hne hw
  exact ⟨n, rfl⟩

theorem before_name_of_lt {m n : Nat} (h : m < n) : Before (name m) (name n) :=
  List.Shortlex.cons (before_word_of_lt h)

theorem lt_iff_before_name {m n : Nat} : m < n ↔ Before (name m) (name n) := by
  refine ⟨before_name_of_lt, fun h => Nat.not_le.1 fun hle => ?_⟩
  rcases Nat.eq_or_lt_of_le hle with rfl | hlt
  · exact Std.Irrefl.irrefl _ h
  · exact Std.Asymm.asymm _ _ h (before_name_of_lt hlt)

/-- What comes before a text is not longer. -/
theorem Before.length_le {s t : Text} (h : Before s t) : s.length ≤ t.length := by
  rcases List.shortlex_def.1 h with hlt | ⟨heq, -⟩
  · exact Nat.le_of_lt hlt
  · exact Nat.le_of_eq heq

/-- **The short names are counted through, the shortest first.**  No negative index has a name, and
every other one has.  Each short name belongs to one index, and names come in the order of their
indices.  So a short name that is not among the first `n` comes behind all of these, and none of
them is longer. -/
theorem name_enumerates :
    (∀ i : Int, i < 0 → ofIndex i = .error ⟨i⟩) ∧
    (∀ n : Nat, ofIndex n = .ok (name n)) ∧
    Set.BijOn name Set.univ {s | IsShortName s} ∧
    (∀ m n, m < n ↔ Before (name m) (name n)) ∧
    ∀ n s, IsShortName s → (∀ i < n, name i ≠ s) →
      ∀ i < n, Before (name i) s ∧ (name i).length ≤ s.length := by
  refine ⟨fun i hi => if_pos hi, fun n => if_neg (Int.not_lt.2 (Int.natCast_nonneg n)),
    ⟨fun n _ => isShortName_name n, name_injective.injOn, fun s hs => ?_⟩,
    fun m n => lt_iff_before_name, fun n s hs hnot i hi => ?_⟩
  · obtain ⟨n, hn⟩ := IsShortName.exists_name hs
    exact ⟨n, Set.mem_univ n, hn⟩
  · obtain ⟨j, rfl⟩ := hs.exists_name
    have hge : n ≤ j := Nat.not_lt.1 fun hj => hnot j hj rfl
    have hbefore := before_name_of_lt (Nat.lt_of_lt_of_le hi hge)
    exact ⟨hbefore, hbefore.length_le⟩

/-- The last name of one letter, and the first two of two. -/
theorem name_enumerates_carry :
    ofIndex (-1) = .error ⟨-1⟩ ∧ ofIndex 52 = .ok "$aa".toList ∧
      Before "$Z".toList "$aa".toList ∧ Before "$Z".toList "$ab".toList ∧
      "$Z".toList.length ≤ "$ab".toList.length := by
  obtain ⟨hneg, hname, -, horder, hrest⟩ := name_enumerates
  have hlast : name 51 = "$Z".toList := by with_unfolding_all rfl
  have hfirst : name 52 = "$aa".toList := by with_unfolding_all rfl
  have hsecond : name 53 = "$ab".toList := by with_unfolding_all rfl
  have hnot : ∀ i < 52, name i ≠ "$ab".toList := by
    rw [← hsecond]
    exact fun i hi h => absurd (name_injective h) (by omega)
  have hshort : IsShortName "$ab".toList := hsecond ▸ isShortName_name 53
  refine ⟨hneg (-1) (by decide), hfirst ▸ hname 52, ?_, ?_⟩
  · rw [← hlast, ← hfirst]
    exact (horder 51 52).1 (by decide)
  · rw [← hlast]
    exact hrest 52 _ hshort hnot 51 (by decide)

end Sigil.ShortName
