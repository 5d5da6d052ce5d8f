import Mathlib.Tactic.SplitIfs
import Sigil.Json.Writer

/-!
# Proofs/Json/OneLine — a document is written on one line

Whatever a document holds, the writer spells it with the characters from the blank to the tilde:
line ends, control characters and all that is not ASCII are escaped (`plain_escape`), and numbers
are digits and signs (`numerals_text`).  So no written document holds a line end
(`oneLine_write`).  What a written document is put together from is said once (`OfPieces.write`):
quoted strings, and texts without a backslash.
-/

namespace Sigil

/-- A character from the blank to the tilde. -/
def Plain (c : Char) : Prop := 32 ≤ c.toNat ∧ c.toNat < 127

instance (c : Char) : Decidable (Plain c) := inferInstanceAs (Decidable (_ ∧ _))

theorem plain_of_isDigit {c : Char} (h : c.isDigit = true) : Plain c := by
  simp only [Char.isDigit, Bool.and_eq_true, decide_eq_true_eq] at h
  have h0 : 48 ≤ c.toNat := h.1
  have h9 : c.toNat ≤ 57 := h.2
  exact ⟨by omega, by omega⟩

/-- A character of which numbers are written. -/
def Numeral (c : Char) : Prop := c.isDigit = true ∨ c ∈ ['-', '+', '.', 'e']

instance (c : Char) : Decidable (Numeral c) := inferInstanceAs (Decidable (_ ∨ _))

theorem Numeral.plain {c : Char} (h : Numeral c) : Plain c := by
  have hsigns : ∀ d ∈ ['-', '+', '.', 'e'], Plain d := by simp [Plain]
  exact h.elim plain_of_isDigit (hsigns c)

theorem numeral_of_mem_toDigits {n : Nat} {c : Char} (h : c ∈ Nat.toDigits 10 n) : Numeral c :=
  .inl (Nat.isDigit_of_mem_toDigits (by decide) (by decide) h)

theorem plain_digitChar : ∀ k < 16, Plain (Nat.digitChar k) := by decide

theorem Text.plain_of_mem_hex {width n : Nat} {c : Char} (h : c ∈ Text.hex width n) : Plain c := by
  induction width generalizing n with
  | zero => exact absurd h List.not_mem_nil
  | succ width ih =>
    rw [Text.hex, List.mem_append, List.mem_singleton] at h
    rcases h with h | rfl
    · exact ih h
    · exact plain_digitChar _ (Nat.mod_lt _ (by decide))

namespace Json

/-- All characters of a text are plain. -/
def OneLine (s : String) : Prop := ∀ c ∈ s.toList, Plain c

instance (s : String) : Decidable (OneLine s) :=
  decidable_of_iff (s.toList.all fun c => decide (Plain c)) (by simp [OneLine])

theorem OneLine.append {s t : String} (hs : OneLine s) (ht : OneLine t) : OneLine (s ++ t) := by
  rw [OneLine, String.toList_append, List.forall_mem_append]
  exact ⟨hs, ht⟩

theorem oneLine_ofList {t : Text} (h : ∀ c ∈ t, Plain c) : OneLine (String.ofList t) := by
  rw [OneLine, String.toList_ofList]
  exact h

/-- **Inside a string every character is plain** or escaped by plain ones. -/
theorem plain_escape {x c : Char} (h : c ∈ escape x) : Plain c := by
  have hunit : ∀ n, c ∈ unitEscape n → Plain c := by
    intro n hc
    rw [unitEscape, List.mem_cons, List.mem_cons] at hc
    rcases hc with rfl | rfl | hc
    · decide
    · decide
    · exact Text.plain_of_mem_hex hc
  have hpair : ∀ d : Char, Plain d → c ∈ ['\\', d] → Plain c := by
    intro d hd hc
    simp only [List.mem_cons, List.not_mem_nil, or_false] at hc
    rcases hc with rfl | rfl
    · decide
    · exact hd
  rw [escape] at h
  split_ifs at h with _ _ _ _ _ _ _ hplain
  · exact hpair _ (by decide) h
  · exact hpair _ (by decide) h
  · exact hpair _ (by decide) h
  · exact hpair _ (by decide) h
  · exact hpair _ (by decide) h
  · exact hpair _ (by decide) h
  · exact hpair _ (by decide) h
  · rw [List.mem_singleton.1 h]
    exact hplain
  · exact hunit _ h
  · rcases List.mem_append.1 h with h | h
    · exact hunit _ h
    · exact hunit _ h

theorem oneLine_quote (s : String) : OneLine (quote s) := by
  refine oneLine_ofList fun c hc => ?_
  rw [List.mem_cons, List.mem_append, List.mem_singleton, List.mem_flatMap] at hc
  rcases hc with rfl | ⟨x, -, hx⟩ | rfl
  · decide
  · exact plain_escape hx
  · decide

/-! ## Numbers -/

theorem toList_ofNat (n : Nat) : (toString (Int.ofNat n)).toList = Nat.toDigits 10 n :=
  Nat.toList_repr

theorem toList_negSucc (n : Nat) :
    (toString (Int.negSucc n)).toList = '-' :: Nat.toDigits 10 (n + 1) := by
  rw [← Nat.toList_repr]
  exact String.toList_append

theorem numeral_of_mem_int {i : Int} {c : Char} (h : c ∈ (toString i).toList) : Numeral c := by
  cases i with
  | ofNat n =>
    rw [toList_ofNat] at h
    exact numeral_of_mem_toDigits h
  | negSucc n =>
    rw [toList_negSucc, List.mem_cons] at h
    rcases h with rfl | h
    · decide
    · exact numeral_of_mem_toDigits h

/-- All characters of a text are such that numbers are written of them. -/
def Numerals (t : Text) : Prop := ∀ c ∈ t, Numeral c

theorem Numerals.append {s t : Text} (hs : Numerals s) (ht : Numerals t) : Numerals (s ++ t) :=
  List.forall_mem_append.2 ⟨hs, ht⟩

theorem Numerals.cons {c : Char} {t : Text} (hc : Numeral c) (ht : Numerals t) :
    Numerals (c :: t) :=
  List.forall_mem_cons.2 ⟨hc, ht⟩

theorem Numerals.head {c : Char} {t : Text} (h : Numerals (c :: t)) : Numeral c :=
  (List.forall_mem_cons.1 h).1

theorem Numerals.tail {c : Char} {t : Text} (h : Numerals (c :: t)) : Numerals t :=
  (List.forall_mem_cons.1 h).2

theorem numerals_replicate (n : Nat) : Numerals (List.replicate n '0') := by
  intro c hc
  rw [List.eq_of_mem_replicate hc]
  decide

theorem numerals_toDigits (n : Nat) : Numerals (Nat.toDigits 10 n) :=
  fun _ => numeral_of_mem_toDigits

/-- **A fraction is written with digits and signs.** -/
theorem numerals_text (negative : Bool) (m : Nat) (e : Int) :
    Numerals (Double.finite negative m e).text.toList := by
  have hpoint : Numeral '.' := by decide
  have hzero : Numeral '0' := by decide
  have hnil : Numerals [] := List.forall_mem_nil _
  have hsign : Numerals (if negative then "-" else "").toList := by
    cases negative with
    | false => exact hnil
    | true => exact .cons (by decide) hnil
  rw [Double.text]
  generalize Double.digits m e = found
  obtain ⟨k, x⟩ := found
  have hdigits : Numerals (Nat.toDigits 10 k) := numerals_toDigits k
  simp only
  generalize Nat.toDigits 10 k = ds at hdigits ⊢
  split
  · -- zero
    rw [String.toList_append]
    exact hsign.append (.cons hzero (.cons hpoint (.cons hzero hnil)))
  rw [String.toList_append, String.toList_ofList]
  refine hsign.append ?_
  split
  · split_ifs
    · -- a point behind a zero
      exact .append (.append (.cons hzero (.cons hpoint hnil)) (numerals_replicate _)) hdigits
    · -- a whole number
      exact .append (hdigits.append (numerals_replicate _)) (.cons hpoint (.cons hzero hnil))
    · -- a point among the digits
      exact .append (fun c hc => hdigits c (List.mem_of_mem_take hc))
        (.cons hpoint fun c hc => hdigits c (List.mem_of_mem_drop hc))
  · -- digits, and a power of ten behind them
    refine .append ?_ (.cons (by decide) (.cons ?_ ?_))
    · split
      · exact .cons hdigits.head (.cons hpoint hdigits.tail)
      · exact hdigits
    · split <;> decide
    · split
      · exact .cons hzero (numerals_toDigits _)
      · exact numerals_toDigits _

/-! ## Documents -/

/-- All characters of a text are plain, and none is a backslash. -/
def Bare (s : String) : Prop := ∀ c ∈ s.toList, Plain c ∧ c ≠ '\\'

instance (s : String) : Decidable (Bare s) :=
  decidable_of_iff (s.toList.all fun c => decide (Plain c ∧ c ≠ '\\')) (by simp [Bare])

theorem bare_of_numeral {s : String} (h : ∀ c ∈ s.toList, Numeral c) : Bare s := by
  intro c hc
  refine ⟨(h c hc).plain, ?_⟩
  rintro rfl
  exact absurd (h _ hc) (by decide)

theorem bare_doubleText (d : Double) : Bare (doubleText d) := by
  cases d with
  | nan => decide
  | infinite negative => cases negative <;> decide
  | finite negative m e => exact bare_of_numeral (numerals_text negative m e)

/-- A property of quoted strings and of bare texts, and of two texts in a row that have it. -/
structure OfPieces (P : String → Prop) : Prop where
  append : ∀ s t, P s → P t → P (s ++ t)
  quote : ∀ s, P (quote s)
  bare : ∀ s, Bare s → P s

variable {P : String → Prop}

/-- Something bare and plain may stand between two texts. -/
theorem OfPieces.between (h : OfPieces P) {s t u : String} (hs : P s) (ht : Bare t) (hu : P u) :
    P (s ++ t ++ u) :=
  h.append _ _ (h.append _ _ hs (h.bare t ht)) hu

/-- Something bare may stand around a text. -/
theorem OfPieces.around (h : OfPieces P) {s t u : String} (hs : Bare s) (ht : P t) (hu : Bare u) :
    P (s ++ t ++ u) :=
  h.append _ _ (h.append _ _ (h.bare s hs) ht) (h.bare u hu)

mutual

/-- **What holds of the pieces of a document holds of the document**, as it is written. -/
theorem OfPieces.write (h : OfPieces P) : ∀ v : Json, P v.write
  | .null => h.bare _ (by decide)
  | .bool b => h.bare _ (by cases b <;> decide)
  | .int i => by
    rw [Json.write]
    exact h.bare _ (bare_of_numeral fun c => numeral_of_mem_int)
  | .double d => by
    rw [Json.write]
    exact h.bare _ (bare_doubleText d)
  | .str s => by
    rw [Json.write]
    exact h.quote s
  | .arr items => by
    rw [Json.write]
    exact h.around (by decide) (h.writeItems items) (by decide)
  | .obj entries => by
    rw [Json.write]
    exact h.around (by decide) (h.writeEntries entries) (by decide)

theorem OfPieces.writeItems (h : OfPieces P) : ∀ items : List Json, P (writeItems items)
  | [] => h.bare _ (by decide)
  | [x] => by
    rw [Json.writeItems]
    exact h.write x
  | x :: y :: rest => by
    rw [Json.writeItems]
    · exact h.between (h.write x) (by decide) (h.writeItems (y :: rest))
    · exact List.cons_ne_nil y rest

theorem OfPieces.writeEntries (h : OfPieces P) :
    ∀ entries : List (String × Json), P (writeEntries entries)
  | [] => h.bare _ (by decide)
  | [(k, v)] => by
    rw [Json.writeEntries]
    exact h.between (h.quote k) (by decide) (h.write v)
  | (k, v) :: e :: rest => by
    rw [Json.writeEntries]
    · exact h.between (h.between (h.quote k) (by decide) (h.write v)) (by decide)
        (h.writeEntries (e :: rest))
    · exact List.cons_ne_nil e rest

end

/-- **A document is written on one line**, in plain characters. -/
theorem oneLine_write (v : Json) : OneLine v.write := by
  have hpieces : OfPieces OneLine := {
    append := fun _ _ => OneLine.append
    quote := oneLine_quote
    bare := fun _ h c hc => (h c hc).1 }
  exact hpieces.write v

end Json

end Sigil
