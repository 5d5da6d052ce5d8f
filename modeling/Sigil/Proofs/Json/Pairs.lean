import Sigil.Proofs.Json.Scalars

/-!
# Proofs/Json/Pairs — every unit that is written has its partner

    paired (spelledUnits (write v)) = true

A character above U+FFFF is written as two units, one behind the other, and no other character is
written as a unit that asks for a partner.  So a piece of a written document leaves the search for
lonely units where it was (`Transparent`), and the pieces are read one behind the other.
-/

namespace Sigil.Json

/-- A text that the search for lonely units passes over. -/
def Transparent (s : String) : Prop :=
  ∀ rest, paired false (spelledUnits (s.toList ++ rest)) = paired false (spelledUnits rest)

theorem Transparent.append (s t : String) (hs : Transparent s) (ht : Transparent t) :
    Transparent (s ++ t) := by
  intro rest
  rw [String.toList_append, List.append_assoc, hs, ht]

theorem paired_zero (ns : List Nat) : paired false (0 :: ns) = paired false ns := rfl

theorem transparent_of_ne {s : String} (h : ∀ c ∈ s.toList, c ≠ '\\') : Transparent s := by
  intro rest
  generalize s.toList = t at h
  induction t with
  | nil => rfl
  | cons c t ih =>
    rw [List.forall_mem_cons] at h
    rw [List.cons_append, spelledUnits_cons h.1, paired_zero, ih h.2]

/-- A letter behind a backslash spells no unit. -/
theorem spelledUnits_letter {d : Char} (hd : d ≠ 'u') (rest : Text) :
    spelledUnits ('\\' :: d :: rest) = 0 :: spelledUnits rest := by
  rw [spelledUnits]
  rintro a b c e more rfl
  exact absurd rfl hd

theorem spelledUnits_unit {n : Nat} (hn : n < 0x10000) (rest : Text) :
    spelledUnits (unitEscape n ++ rest) = n :: spelledUnits rest := by
  obtain ⟨a, b, c, d, hhex, hunit⟩ := unit?_hex hn
  rw [unitEscape, hhex]
  simp only [List.cons_append, List.nil_append, spelledUnits, hunit, Option.getD_some]

/-- A unit that is no half of a pair is passed over. -/
theorem paired_of_lt_or {n : Nat} (h : n < 0xd800 ∨ 0xdfff < n) (ns : List Nat) :
    paired false (n :: ns) = paired false ns := by
  have hhigh : isHigh n = false := by
    simp only [isHigh, Bool.and_eq_false_iff, decide_eq_false_iff_not]
    omega
  have hlow : isLow n = false := by
    simp only [isLow, Bool.and_eq_false_iff, decide_eq_false_iff_not]
    omega
  rw [paired, hhigh, hlow]
  rfl

/-- Two units that belong together are passed over. -/
theorem paired_pair {high low : Nat} (hh : 0xd800 ≤ high ∧ high < 0xdc00)
    (hl : 0xdc00 ≤ low ∧ low < 0xe000) (ns : List Nat) :
    paired false (high :: low :: ns) = paired false ns := by
  have hhigh : isHigh high = true ∧ isLow high = false := by
    simp only [isHigh, isLow, Bool.and_eq_true, decide_eq_true_eq, Bool.and_eq_false_iff,
      decide_eq_false_iff_not]
    omega
  have hlow : isHigh low = false ∧ isLow low = true := by
    simp only [isHigh, isLow, Bool.and_eq_true, decide_eq_true_eq, Bool.and_eq_false_iff,
      decide_eq_false_iff_not]
    omega
  rw [paired, paired, hhigh.1, hhigh.2, hlow.1, hlow.2]
  rfl

/-- **A character's escape is passed over.** -/
theorem paired_escape (c : Char) (rest : Text) :
    paired false (spelledUnits (escape c ++ rest)) = paired false (spelledUnits rest) := by
  have hvalid := toNat_lt_or c
  have hletter : ∀ d, d ≠ 'u' →
      paired false (spelledUnits (['\\', d] ++ rest)) = paired false (spelledUnits rest) := by
    intro d hd
    rw [List.cons_append, List.singleton_append, spelledUnits_letter hd, paired_zero]
  rw [escape]
  split_ifs with h1 h2 h3 h4 h5 h6 h7 hplain hsmall
  · exact hletter _ (by decide)
  · exact hletter _ (by decide)
  · exact hletter _ (by decide)
  · exact hletter _ (by decide)
  · exact hletter _ (by decide)
  · exact hletter _ (by decide)
  · exact hletter _ (by decide)
  · rw [List.singleton_append, spelledUnits_cons h2, paired_zero]
  · rw [spelledUnits_unit hsmall, paired_of_lt_or (hvalid.imp_right And.left)]
  · rw [List.append_assoc, spelledUnits_unit (by omega), spelledUnits_unit (by omega),
      paired_pair (by omega) (by omega)]

theorem transparent_quote (s : String) : Transparent (quote s) := by
  intro rest
  have hbody : ∀ t u : Text,
      paired false (spelledUnits (t.flatMap escape ++ u)) = paired false (spelledUnits u) := by
    intro t u
    induction t with
    | nil => rfl
    | cons c t ih => rw [List.flatMap_cons, List.append_assoc, paired_escape, ih]
  have hmark : ∀ u : Text,
      paired false (spelledUnits ('"' :: u)) = paired false (spelledUnits u) := by
    intro u
    rw [spelledUnits_cons (by decide), paired_zero]
  rw [toList_quote, List.cons_append, hmark, List.append_assoc, hbody, List.singleton_append, hmark]

/-- **Every unit of a written document has its partner.** -/
theorem paired_write (v : Json) : paired false (spelledUnits v.write.toList) = true := by
  have hpieces : OfPieces Transparent := {
    append := Transparent.append
    quote := transparent_quote
    bare := fun _ h => transparent_of_ne fun c hc => (h c hc).2 }
  rw [← List.append_nil v.write.toList, hpieces.write v]
  rfl

end Sigil.Json
