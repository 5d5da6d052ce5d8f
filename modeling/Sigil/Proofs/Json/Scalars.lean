import Mathlib.Data.List.TakeWhile
import Mathlib.Tactic.ByContra
import Mathlib.Tactic.SplitIfs
import Sigil.Json.Reader
import Sigil.Proofs.Json.OneLine

/-!
# Proofs/Json/Scalars — strings and numbers are read as they are written

    readString (escaped s, a quote, rest)  =  s, rest
    readNumber? (t ++ rest)                =  the number in t, rest

A string is read character by character, each from its escape: one above U+FFFF is written as two
units, which the reader puts together again.  A number has no end of its own, so it can only be read
where the text behind it cannot belong to it (`Ends`).
-/

namespace Sigil.Json

/-! ## Strings -/

theorem hexValue?_digitChar : ∀ k < 16, hexValue? (Nat.digitChar k) = some k := by decide

/-- Four hexadecimal digits write the number they were taken from. -/
theorem unit?_hex {n : Nat} (hn : n < 0x10000) :
    ∃ a b c d, Text.hex 4 n = [a, b, c, d] ∧ unit? a b c d = some n := by
  refine ⟨_, _, _, _, rfl, ?_⟩
  rw [unit?, hexValue?_digitChar _ (Nat.mod_lt _ (by decide)),
    hexValue?_digitChar _ (Nat.mod_lt _ (by decide)),
    hexValue?_digitChar _ (Nat.mod_lt _ (by decide)),
    hexValue?_digitChar _ (Nat.mod_lt _ (by decide))]
  simp only [Option.bind_eq_bind, Option.bind_some, Option.pure_def, Option.some.injEq]
  omega

/-- A unit that asks for no partner stands for its own character. -/
theorem readString_unit {a b c d : Char} {n : Nat} (hn : unit? a b c d = some n)
    (halone : ¬(0xd800 ≤ n ∧ n < 0xdc00)) {rest : Text} (hrest : rest ≠ []) (opening : Nat)
    (done : Text) (pos : Nat) :
    readString opening done pos ('\\' :: 'u' :: a :: b :: c :: d :: rest) =
      readString opening (unitChar n :: done) (pos + 6) rest := by
  by_cases hnext : ∃ e f g h more, rest = '\\' :: 'u' :: e :: f :: g :: h :: more
  · obtain ⟨e, f, g, h, more, rfl⟩ := hnext
    rw [readString, hn]
    exact if_neg fun hpair => halone ⟨hpair.1, hpair.2.1⟩
  · obtain ⟨next, more, rfl⟩ := List.exists_cons_of_ne_nil hrest
    rw [readString, hn]
    rintro e f g h more rfl rfl
    exact hnext ⟨e, f, g, h, more, rfl⟩

/-- Two units that belong together stand for one character. -/
theorem readString_pair {a b c d e f g h : Char} {high low : Nat}
    (hhigh : unit? a b c d = some high) (hlow : unit? e f g h = some low)
    (hh : 0xd800 ≤ high ∧ high < 0xdc00) (hl : 0xdc00 ≤ low ∧ low < 0xe000) {rest : Text}
    (hrest : rest ≠ []) (opening : Nat) (done : Text) (pos : Nat) :
    readString opening done pos
        ('\\' :: 'u' :: a :: b :: c :: d :: '\\' :: 'u' :: e :: f :: g :: h :: rest) =
      readString opening (Char.ofNat (0x10000 + (high - 0xd800) * 0x400 + (low - 0xdc00)) :: done)
        (pos + 12) rest := by
  rw [readString, hhigh]
  simp only [hlow]
  rw [if_pos ⟨hh.1, hh.2, by simpa using hrest⟩, if_pos hl]

/-- A letter behind a backslash stands for the character it names. -/
theorem readString_letter {d e : Char} (he : simpleEscape? d = some e) (hd : d ≠ 'u') (rest : Text)
    (opening : Nat) (done : Text) (pos : Nat) :
    readString opening done pos ('\\' :: d :: rest) =
      readString opening (e :: done) (pos + 2) rest := by
  rw [readString, he]
  · exact fun _ _ _ _ _ _ _ _ _ hu _ => hd hu
  · exact fun _ _ _ _ _ _ hu _ => hd hu
  · exact fun hu => hd hu

/-- A character that needs no escape stands for itself. -/
theorem readString_plain {c : Char} (hc : Plain c) (hquote : c ≠ '"') (hslash : c ≠ '\\')
    (rest : Text) (opening : Nat) (done : Text) (pos : Nat) :
    readString opening done pos (c :: rest) = readString opening (c :: done) (pos + 1) rest := by
  rw [readString]
  · exact if_neg (by have := hc.1; omega)
  · exact hquote
  · exact fun hc _ => hslash hc
  · exact fun _ _ _ _ _ _ _ _ _ hc _ => hslash hc
  · exact fun _ _ _ _ _ _ hc _ => hslash hc
  · exact fun _ hc _ => hslash hc
  · exact fun _ _ hc _ => hslash hc

/-- The number of a character is no half of a pair. -/
theorem toNat_lt_or (c : Char) : c.toNat < 0xd800 ∨ 0xdfff < c.toNat ∧ c.toNat < 0x110000 := c.valid

/-- **A character is read from its escape.** -/
theorem readString_escape (c : Char) {rest : Text} (hrest : rest ≠ []) (opening : Nat) (done : Text)
    (pos : Nat) :
    ∃ pos', readString opening done pos (escape c ++ rest) =
      readString opening (c :: done) pos' rest := by
  have hvalid := toNat_lt_or c
  have hletter : ∀ d, simpleEscape? d = some c → d ≠ 'u' → ∃ pos',
      readString opening done pos (['\\', d] ++ rest) = readString opening (c :: done) pos' rest :=
    fun d hd hu => ⟨_, readString_letter hd hu rest opening done pos⟩
  rw [escape]
  split_ifs with h1 h2 h3 h4 h5 h6 h7 hplain hsmall
  · exact hletter _ (by rw [h1, simpleEscape?]) (by decide)
  · exact hletter _ (by rw [h2, simpleEscape?]) (by decide)
  · exact hletter _ (by rw [h3, simpleEscape?]) (by decide)
  · exact hletter _ (by rw [h4, simpleEscape?]) (by decide)
  · exact hletter _ (by rw [h5, simpleEscape?]) (by decide)
  · exact hletter _ (by rw [h6, simpleEscape?]) (by decide)
  · exact hletter _ (by rw [h7, simpleEscape?]) (by decide)
  · exact ⟨_, readString_plain hplain h1 h2 rest opening done pos⟩
  · obtain ⟨w, x, y, z, hhex, hunit⟩ := unit?_hex hsmall
    have hchar : unitChar c.toNat = c := by
      rw [unitChar, if_neg (by omega), Char.ofNat_toNat]
    rw [unitEscape, hhex]
    refine ⟨pos + 6, (readString_unit hunit (by omega) hrest opening done pos).trans ?_⟩
    rw [hchar]
  · obtain ⟨a, b, d, e, hhigh, hunitHigh⟩ :=
      unit?_hex (n := 0xd800 + (c.toNat - 0x10000) / 0x400) (by omega)
    obtain ⟨w, x, y, z, hlow, hunitLow⟩ :=
      unit?_hex (n := 0xdc00 + (c.toNat - 0x10000) % 0x400) (by omega)
    rw [unitEscape, unitEscape, hhigh, hlow]
    refine ⟨pos + 12, (readString_pair hunitHigh hunitLow (by omega) (by omega) hrest opening done
      pos).trans ?_⟩
    have hchar : 0x10000 + (0xd800 + (c.toNat - 0x10000) / 0x400 - 0xd800) * 0x400 +
        (0xdc00 + (c.toNat - 0x10000) % 0x400 - 0xdc00) = c.toNat := by omega
    rw [hchar, Char.ofNat_toNat]

/-- **A string is read from its quotes.** -/
theorem readString_flatMap (s rest : Text) (opening : Nat) (done : Text) (pos : Nat) :
    ∃ pos', readString opening done pos (s.flatMap escape ++ '"' :: rest) =
      .ok (String.ofList (done.reverse ++ s), rest, pos') := by
  induction s generalizing done pos with
  | nil =>
    rw [List.flatMap_nil, List.nil_append, readString_quote, List.append_nil]
    exact ⟨_, rfl⟩
  | cons c s ih =>
    rw [List.flatMap_cons, List.append_assoc]
    have hmore : s.flatMap escape ++ '"' :: rest ≠ [] := by simp
    obtain ⟨pos₁, hc⟩ := readString_escape c hmore opening done pos
    obtain ⟨pos₂, hs⟩ := ih (c :: done) pos₁
    refine ⟨pos₂, hc.trans (hs.trans ?_)⟩
    rw [List.reverse_cons, List.append_assoc, List.singleton_append]

theorem toList_quote (s : String) :
    (quote s).toList = '"' :: (s.toList.flatMap escape ++ ['"']) := by
  rw [quote, String.toList_ofList]

/-! ## Numbers -/

/-- A text in front of which a value is over: it is empty, or begins with a comma or a closing
bracket. -/
def Ends (rest : Text) : Prop := ∀ c ∈ rest.head?, c = ',' ∨ c = ']' ∨ c = '\x7d'

/-- The digits in front of the point. -/
def wholeDigits (body : Text) : Text :=
  match body with
  | '0' :: _ => ['0']
  | _ => body.takeWhile Char.isDigit

theorem Ends.head_ne {c : Char} {rest : Text} (h : Ends (c :: rest)) {d : Char}
    (hd : d ≠ ',' ∧ d ≠ ']' ∧ d ≠ '\x7d') : c ≠ d := by
  rintro rfl
  rcases h c rfl with hc | hc | hc
  · exact hd.1 hc
  · exact hd.2.1 hc
  · exact hd.2.2 hc

theorem Ends.isDigit {c : Char} {rest : Text} (h : Ends (c :: rest)) : c.isDigit = false := by
  rcases h c rfl with rfl | rfl | rfl <;> rfl

/-- Digits go on up to where a value is over. -/
theorem takeWhile_isDigit_append (t : Text) {rest : Text} (h : Ends rest) :
    (t ++ rest).takeWhile Char.isDigit = t.takeWhile Char.isDigit := by
  induction t with
  | nil =>
    cases rest with
    | nil => rfl
    | cons c rest => rw [List.nil_append, List.takeWhile_cons, h.isDigit]; rfl
  | cons c t ih => rw [List.cons_append, List.takeWhile_cons, List.takeWhile_cons, ih]

theorem wholeDigits_append (t : Text) {rest : Text} (h : Ends rest) :
    wholeDigits (t ++ rest) = wholeDigits t := by
  have htake := takeWhile_isDigit_append t h
  cases t with
  | nil =>
    cases rest with
    | nil => rfl
    | cons c rest =>
      rw [wholeDigits, List.nil_append]
      · exact htake
      · rintro more ⟨⟩
        exact absurd rfl (h.head_ne (by decide))
  | cons c t =>
    by_cases hc : c = '0'
    · rw [hc]
      rfl
    · rw [wholeDigits, wholeDigits, htake]
      · rintro more ⟨⟩
        exact hc rfl
      · rintro more ⟨⟩
        exact hc rfl

theorem places_append (t : Text) {rest : Text} (h : Ends rest) : places (t ++ rest) = places t := by
  cases t with
  | nil =>
    cases rest with
    | nil => rfl
    | cons c rest =>
      rw [List.nil_append, places]
      · rfl
      · rintro more ⟨⟩
        exact absurd rfl (h.head_ne (by decide))
  | cons c t =>
    by_cases hc : c = '.'
    · rw [hc]
      exact takeWhile_isDigit_append t h
    · rw [places, places]
      · rintro more ⟨⟩
        exact hc rfl
      · rintro more ⟨⟩
        exact hc rfl

/-- The sign at the front of a number, how long it is, and what follows it. -/
def signAt (t : Text) : Bool × Nat × Text :=
  match t with
  | '-' :: rest => (true, 1, rest)
  | '+' :: rest => (false, 1, rest)
  | _ => (false, 0, t)

theorem signAt_append (t : Text) {rest : Text} (h : Ends rest) :
    signAt (t ++ rest) = ((signAt t).1, (signAt t).2.1, (signAt t).2.2 ++ rest) := by
  cases t with
  | nil =>
    cases rest with
    | nil => rfl
    | cons c rest =>
      rw [List.nil_append, signAt]
      · rfl
      · rintro more ⟨⟩
        exact absurd rfl (h.head_ne (by decide))
      · rintro more ⟨⟩
        exact absurd rfl (h.head_ne (by decide))
  | cons c t =>
    by_cases hminus : c = '-'
    · rw [hminus]
      rfl
    by_cases hplus : c = '+'
    · rw [hplus]
      rfl
    have hnone : ∀ u : Text, signAt (c :: u) = (false, 0, c :: u) := by
      intro u
      rw [signAt]
      · rintro more ⟨⟩
        exact hminus rfl
      · rintro more ⟨⟩
        exact hplus rfl
    rw [List.cons_append, hnone, hnone, List.cons_append]

theorem exponent?_cons {e : Char} (he : e = 'e' ∨ e = 'E') (t : Text) :
    exponent? (e :: t) =
      if ((signAt t).2.2.takeWhile Char.isDigit).isEmpty then none
      else some ((signAt t).1, (signAt t).2.2.takeWhile Char.isDigit,
        1 + (signAt t).2.1 + ((signAt t).2.2.takeWhile Char.isDigit).length) := by
  exact if_pos he

theorem exponent?_append (t : Text) {rest : Text} (h : Ends rest) :
    exponent? (t ++ rest) = exponent? t := by
  cases t with
  | nil =>
    cases rest with
    | nil => rfl
    | cons c rest =>
      refine if_neg ?_
      rintro (hc | hc)
      · exact h.head_ne (by decide) hc
      · exact h.head_ne (by decide) hc
  | cons e t =>
    by_cases he : e = 'e' ∨ e = 'E'
    · rw [List.cons_append, exponent?_cons he, exponent?_cons he, signAt_append t h,
        takeWhile_isDigit_append _ h]
    · exact (if_neg he).trans (if_neg he).symm

/-- An exponent takes no more than is there. -/
theorem length_of_exponent? {t ds : Text} {below : Bool} {n : Nat}
    (h : exponent? t = some (below, ds, n)) : n ≤ t.length := by
  cases t with
  | nil => exact absurd h nofun
  | cons e t =>
    by_cases he : e = 'e' ∨ e = 'E'
    · rw [exponent?_cons he, Option.ite_none_left_eq_some, Option.some.injEq, Prod.mk.injEq,
        Prod.mk.injEq] at h
      obtain ⟨-, -, -, rfl⟩ := h
      have hsign : (signAt t).2.1 + (signAt t).2.2.length = t.length := by
        unfold signAt
        split
        · exact Nat.add_comm _ _
        · exact Nat.add_comm _ _
        · exact Nat.zero_add _
      have htake := (List.takeWhile_prefix Char.isDigit (l := (signAt t).2.2)).length_le
      rw [List.length_cons]
      omega
    · exact absurd ((if_neg he).symm.trans h) nofun

theorem length_wholeDigits_le (t : Text) : (wholeDigits t).length ≤ t.length := by
  unfold wholeDigits
  split
  · exact Nat.le_add_left 1 _
  · exact (List.takeWhile_prefix _).length_le

/-- How many characters a point and the digits behind it take. -/
def pointLength (fraction : Text) : Nat := if fraction.isEmpty then 0 else fraction.length + 1

theorem pointLength_places_le (t : Text) : pointLength (places t) ≤ t.length := by
  rw [pointLength]
  split
  next => exact Nat.zero_le _
  next hsome =>
    unfold places at hsome ⊢
    split at hsome
    · exact Nat.succ_le_succ (List.takeWhile_prefix _).length_le
    · exact absurd rfl hsome

/-- The text behind the digits of a number. -/
def behindWhole (body : Text) : Text := body.drop (wholeDigits body).length

/-- The text behind a point and its digits. -/
def behindPoint (t : Text) : Text := t.drop (pointLength (places t))

theorem behindWhole_append (t : Text) {rest : Text} (h : Ends rest) :
    behindWhole (t ++ rest) = behindWhole t ++ rest := by
  rw [behindWhole, behindWhole, wholeDigits_append t h,
    List.drop_append_of_le_length (length_wholeDigits_le t)]

theorem behindPoint_append (t : Text) {rest : Text} (h : Ends rest) :
    behindPoint (t ++ rest) = behindPoint t ++ rest := by
  rw [behindPoint, behindPoint, places_append t h,
    List.drop_append_of_le_length (pointLength_places_le t)]

/-- Whether a minus stands in front of a number, and the text behind it. -/
def signed (t : Text) : Bool × Text :=
  match t with
  | '-' :: rest => (true, rest)
  | _ => (false, t)

/-- The number behind a sign, part by part. -/
def unsigned? (negative : Bool) (body : Text) (start : Nat) : Option (Json × Text × Nat) :=
  let whole := wholeDigits body
  let fraction := places (behindWhole body)
  let rest := behindPoint (behindWhole body)
  let stop := start + whole.length + pointLength fraction
  if whole.isEmpty then none
  else
    match exponent? rest with
    | some (below, ds, n) =>
      let x : Int := if below then -(digitsValue ds : Int) else digitsValue ds
      some (.double (.ofDecimal negative (digitsValue (whole ++ fraction)) (x - fraction.length)),
        rest.drop n, stop + n)
    | none =>
      if fraction.isEmpty then
        some (.int (if negative then -(digitsValue whole : Int) else digitsValue whole), rest, stop)
      else
        some (.double (.ofDecimal negative (digitsValue (whole ++ fraction))
          (-(fraction.length : Int))), rest, stop)

theorem readNumber?_eq (t : Text) (pos : Nat) :
    readNumber? t pos =
      unsigned? (signed t).1 (signed t).2 (pos + if (signed t).1 then 1 else 0) :=
  rfl

/-- **A number is over** where the value is. -/
theorem exists_unsigned?_append {negative : Bool} {body rest : Text} {start stop : Nat} {v : Json}
    (h : unsigned? negative body start = some (v, [], stop)) (hrest : Ends rest) (start' : Nat) :
    ∃ stop', unsigned? negative (body ++ rest) start' = some (v, rest, stop') := by
  simp only [unsigned?, wholeDigits_append body hrest, behindWhole_append body hrest,
    places_append _ hrest, behindPoint_append _ hrest, exponent?_append _ hrest] at h ⊢
  have hdrop : ∀ {below ds n}, exponent? (behindPoint (behindWhole body)) = some (below, ds, n) →
      (behindPoint (behindWhole body) ++ rest).drop n
        = (behindPoint (behindWhole body)).drop n ++ rest := fun hpower =>
    List.drop_append_of_le_length (length_of_exponent? hpower)
  rw [Option.ite_none_left_eq_some] at h
  obtain ⟨hwhole, h⟩ := h
  rw [if_neg hwhole]
  have hfound : ∀ {v' : Json} {rest' : Text} {stop'}, some (v', rest', stop') = some (v, [], stop) →
      v' = v ∧ rest' = [] := by
    rintro v' rest' stop' ⟨⟩
    exact ⟨rfl, rfl⟩
  split at h
  next below ds n hpower =>
    obtain ⟨hv, hnil⟩ := hfound h
    rw [hdrop hpower, hv, hnil]
    exact ⟨_, rfl⟩
  next =>
    split at h
    next hfraction =>
      obtain ⟨hv, hnil⟩ := hfound h
      rw [if_pos hfraction, hv, hnil]
      exact ⟨_, rfl⟩
    next hfraction =>
      obtain ⟨hv, hnil⟩ := hfound h
      rw [if_neg hfraction, hv, hnil]
      exact ⟨_, rfl⟩

/-- **A number is read up to where it is over**, at any place. -/
theorem exists_readNumber?_append {t rest : Text} {stop : Nat} {v : Json}
    (h : readNumber? t 0 = some (v, [], stop)) (hrest : Ends rest) (pos : Nat) :
    ∃ pos', readNumber? (t ++ rest) pos = some (v, rest, pos') := by
  rw [readNumber?_eq] at h ⊢
  have hsigned : signed (t ++ rest) = ((signed t).1, (signed t).2 ++ rest) := by
    cases t with
    | nil => exact absurd h nofun
    | cons c t =>
      by_cases hc : c = '-'
      · rw [hc]
        rfl
      · unfold signed
        split
        next more hmore => exact absurd (List.cons.inj hmore).1 hc
        split
        next more hmore => exact absurd (List.cons.inj hmore).1 hc
        rfl
  rw [hsigned]
  exact exists_unsigned?_append h hrest _

/-- A number begins with a digit, or a digit behind a minus. -/
theorem exists_of_readNumber? {t : Text} {pos : Nat} {found : Json × Text × Nat}
    (h : readNumber? t pos = some found) :
    ∃ d more, d.isDigit = true ∧ (t = d :: more ∨ t = '-' :: d :: more) := by
  rw [readNumber?_eq, unsigned?, Option.ite_none_left_eq_some] at h
  obtain ⟨hwhole, -⟩ := h
  have hbody : ∃ d more, d.isDigit = true ∧ (signed t).2 = d :: more := by
    generalize (signed t).2 = body at hwhole
    cases body with
    | nil => exact absurd rfl hwhole
    | cons d more =>
      refine ⟨d, more, ?_, rfl⟩
      by_contra hd
      unfold wholeDigits at hwhole
      split at hwhole
      next hzero => exact hd ((List.cons.inj hzero).1 ▸ rfl)
      next => exact hwhole (by rw [List.takeWhile_cons_of_neg hd]; rfl)
  obtain ⟨d, more, hd, hbody⟩ := hbody
  refine ⟨d, more, hd, ?_⟩
  unfold signed at hbody
  split at hbody
  next => exact .inr (congrArg _ hbody)
  next => exact .inl hbody

theorem digitsValue_toDigits (n : Nat) : digitsValue (Nat.toDigits 10 n) = n := by
  refine Eq.trans ?_ (Nat.ofDigitChars_ten_toDigits (n := n))
  rw [digitsValue, Nat.ofDigitChars]
  exact congrArg (fun step => List.foldl step 0 _)
    (funext fun k => funext fun c => congrArg (· + _) (Nat.mul_comm k 10))

/-- No zero stands in front of a number that is not zero. -/
theorem exists_toDigits {n : Nat} (hn : 0 < n) :
    ∃ d ds, Nat.toDigits 10 n = d :: ds ∧ d ≠ '0' := by
  induction n using Nat.strong_induction_on with
  | _ n ih =>
    rcases Nat.lt_or_ge n 10 with hlt | hge
    · have hdigit : ∀ k < 10, 0 < k → Nat.digitChar k ≠ '0' := by decide
      exact ⟨_, [], Nat.toDigits_of_lt_base hlt, hdigit n hlt hn⟩
    · obtain ⟨d, ds, hds, hd⟩ := ih (n / 10) (by omega) (by omega)
      refine ⟨d, ds ++ [Nat.digitChar (n % 10)], ?_, hd⟩
      rw [Nat.toDigits_of_base_le (by decide) hge, hds, List.cons_append]

theorem wholeDigits_toDigits (n : Nat) : wholeDigits (Nat.toDigits 10 n) = Nat.toDigits 10 n := by
  rcases Nat.eq_zero_or_pos n with rfl | hn
  · rfl
  · obtain ⟨d, ds, hds, hd⟩ := exists_toDigits hn
    have hall : (Nat.toDigits 10 n).takeWhile Char.isDigit = Nat.toDigits 10 n :=
      List.takeWhile_eq_self_iff.2 fun c hc =>
        Nat.isDigit_of_mem_toDigits (by decide) (by decide) hc
    rw [hds] at hall ⊢
    unfold wholeDigits
    split
    next hzero => exact absurd (List.cons.inj hzero).1 hd
    next => exact hall

theorem unsigned?_toDigits (negative : Bool) (n start : Nat) :
    ∃ stop, unsigned? negative (Nat.toDigits 10 n) start =
      some (.int (if negative then -(n : Int) else n), [], stop) := by
  have hbehind : behindWhole (Nat.toDigits 10 n) = [] := by
    rw [behindWhole, wholeDigits_toDigits, List.drop_length]
  refine ⟨start + (Nat.toDigits 10 n).length, ?_⟩
  rw [unsigned?, hbehind, wholeDigits_toDigits, digitsValue_toDigits]
  exact if_neg (by simp [Nat.toDigits_ne_nil])

/-- **A whole number is read** as it is written. -/
theorem exists_readNumber?_int (i : Int) :
    ∃ stop, readNumber? (toString i).toList 0 = some (.int i, [], stop) := by
  cases i with
  | ofNat n =>
    have hsigned : signed (Nat.toDigits 10 n) = (false, Nat.toDigits 10 n) := by
      unfold signed
      split
      next rest hrest =>
        have hminus : '-' ∈ Nat.toDigits 10 n := hrest ▸ List.mem_cons_self
        exact absurd (Nat.isDigit_of_mem_toDigits (by decide) (by decide) hminus) (by decide)
      next => rfl
    rw [toList_ofNat, readNumber?_eq, hsigned]
    exact unsigned?_toDigits false n 0
  | negSucc n =>
    rw [toList_negSucc, readNumber?_eq]
    exact unsigned?_toDigits true (n + 1) 1

end Sigil.Json
