import Mathlib.Data.List.Nodup
import Sigil.Proofs.Json.Pairs

/-!
# Proofs/Json/RoundTrip — a document is read as it was written

    read depth (write v) = v

Each value is read wherever it stands in a text (`ReadsBack`), by induction on the value: the items
of a list and the entries of an object are read one by one, up to the closing bracket.  Two entries
of one key would become one, so the keys of an object must differ.  Fractions are written with the
fewest digits that identify them; that they do is asked for here (`Identified`).  A whole number
must not have too many digits, and lists and objects must not hold one another too deep.
-/

namespace Sigil.Json

/-! ## Documents -/

/-- A fraction that its digits identify: they are read as that fraction. -/
def Identified (d : Double) : Prop :=
  ∃ stop, readNumber? d.text.toList 0 = some (.double d, [], stop)

/-- A document that can be read from what is written, if `depth` lists and objects may hold one
another: digits identify its fractions, none of its whole numbers has too many, and the keys of an
object differ. -/
inductive Legible : Nat → Json → Prop
  | null {depth : Nat} : Legible depth .null
  | bool {depth : Nat} (b : Bool) : Legible depth (.bool b)
  | int {depth : Nat} {i : Int} (h : isShortInt i) : Legible depth (.int i)
  | finite {depth : Nat} {negative : Bool} {m : Nat} {e : Int}
    (h : Identified (.finite negative m e)) : Legible depth (.double (.finite negative m e))
  | infinite {depth : Nat} (negative : Bool) : Legible depth (.double (.infinite negative))
  | nan {depth : Nat} : Legible depth (.double .nan)
  | str {depth : Nat} (s : String) : Legible depth (.str s)
  | arr {depth : Nat} {items : List Json} (h : ∀ x ∈ items, Legible depth x) :
    Legible (depth + 1) (.arr items)
  | obj {depth : Nat} {entries : List (String × Json)} (h : ∀ kv ∈ entries, Legible depth kv.2)
    (hkeys : (entries.map Prod.fst).Nodup) : Legible (depth + 1) (.obj entries)

/-- A character that can stand in front of a document: neither a blank nor a closing bracket, nor a
byte order mark. -/
def Opens (c : Char) : Prop := isSpace c = false ∧ c ≠ ']' ∧ c ≠ '\ufeff'

instance (c : Char) : Decidable (Opens c) := inferInstanceAs (Decidable (_ ∧ _))

theorem opens_of_isDigit {c : Char} (h : c.isDigit = true) : Opens c := by
  refine ⟨?_, ?_, ?_⟩
  · rw [isSpace]
    simp only [Bool.or_eq_false_iff, decide_eq_false_iff_not]
    refine ⟨⟨⟨?_, ?_⟩, ?_⟩, ?_⟩ <;> (rintro rfl; exact absurd h (by decide))
  · rintro rfl
    exact absurd h (by decide)
  · rintro rfl
    exact absurd h (by decide)

theorem opens_of_readNumber? {t : Text} {pos : Nat} {found : Json × Text × Nat}
    (h : readNumber? t pos = some found) : ∃ c more, t = c :: more ∧ Opens c := by
  obtain ⟨d, more, hd, rfl | rfl⟩ := exists_of_readNumber? h
  · exact ⟨d, more, rfl, opens_of_isDigit hd⟩
  · exact ⟨'-', d :: more, rfl, by decide⟩

/-- **What is written begins** with neither a blank nor a closing bracket. -/
theorem Legible.opens {depth : Nat} {v : Json} (h : Legible depth v) :
    ∃ c more, v.write.toList = c :: more ∧ Opens c := by
  cases h with
  | null => exact ⟨'n', _, rfl, by decide⟩
  | bool b => cases b <;> exact ⟨_, _, rfl, by decide⟩
  | @int _ i =>
    obtain ⟨stop, hi⟩ := exists_readNumber?_int i
    exact opens_of_readNumber? hi
  | finite hd =>
    obtain ⟨stop, hd⟩ := hd
    exact opens_of_readNumber? hd
  | infinite negative => cases negative <;> exact ⟨_, _, rfl, by decide⟩
  | nan => exact ⟨'N', _, rfl, by decide⟩
  | str s => exact ⟨'"', _, toList_quote s, by decide⟩
  | @arr _ items =>
    refine ⟨'[', (writeItems items).toList ++ [']'], ?_, by decide⟩
    rw [write, String.toList_append, String.toList_append]
    rfl
  | @obj _ entries =>
    refine ⟨'\x7b', (writeEntries entries).toList ++ ['\x7d'], ?_, by decide⟩
    rw [write, String.toList_append, String.toList_append]
    rfl

/-- No blank is skipped in front of a document. -/
theorem skipSpace_of_not {c : Char} (h : isSpace c = false) (rest : Text) (pos : Nat) :
    skipSpace (c :: rest) pos = (c :: rest, pos) := by
  rw [skipSpace, h]
  rfl

theorem skipSpace_blank {c : Char} (h : isSpace c = false) (rest : Text) (pos : Nat) :
    skipSpace (' ' :: c :: rest) pos = (c :: rest, pos + 1) := by
  rw [skipSpace]
  exact skipSpace_of_not h rest (pos + 1)

theorem readWord?_of_isDigit {d : Char} (hd : d.isDigit = true) (more : Text) :
    readWord? (d :: more) = none ∧ readWord? ('-' :: d :: more) = none := by
  constructor
  all_goals
    rw [readWord?]
    all_goals rintro rest ⟨⟩ <;> exact absurd hd (by decide)

/-- A number is read as a document, unless it has too many digits. -/
theorem readValue_of_readNumber? {t rest : Text} {pos stop : Nat} {v : Json}
    (h : readNumber? t pos = some (v, rest, stop)) (hshort : v.isShort = true) (fuel depth : Nat) :
    readValue (fuel + 1) depth t pos = .ok (v, rest, stop) := by
  obtain ⟨d, more, hd, rfl | rfl⟩ := exists_of_readNumber? h
  · rw [readValue, (readWord?_of_isDigit hd more).1, h]
    · exact if_pos hshort
    all_goals
      rintro rest ⟨⟩
      exact absurd hd (by decide)
  · rw [readValue, (readWord?_of_isDigit hd more).2, h]
    · exact if_pos hshort
    all_goals rintro rest ⟨⟩

/-- A document is read from what is written of it, wherever that stands. -/
def ReadsBack (depth : Nat) (v : Json) : Prop :=
  ∀ rest, Ends rest → ∀ fuel, v.write.toList.length ≤ fuel → ∀ pos, ∃ pos',
    readValue fuel depth (v.write.toList ++ rest) pos = .ok (v, rest, pos')

theorem ends_comma (t : Text) : Ends (',' :: t) := by
  rintro c ⟨⟩
  exact .inl rfl

theorem ends_bracket (t : Text) : Ends (']' :: t) := by
  rintro c ⟨⟩
  exact .inr (.inl rfl)

theorem ends_brace (t : Text) : Ends ('\x7d' :: t) := by
  rintro c ⟨⟩
  exact .inr (.inr rfl)

variable {depth : Nat}

/-- A number is read wherever it stands. -/
theorem readsBack_of_readNumber? {v : Json} {stop : Nat}
    (h : readNumber? v.write.toList 0 = some (v, [], stop)) (hshort : v.isShort = true) :
    ReadsBack depth v := by
  intro rest hrest fuel hfuel pos
  obtain ⟨d, more, hd, ht⟩ := exists_of_readNumber? h
  have hpos : 0 < v.write.toList.length := by
    rcases ht with ht | ht <;> exact ht ▸ Nat.succ_pos _
  obtain ⟨fuel, rfl⟩ := Nat.exists_eq_add_one.2 (hpos.trans_le hfuel)
  obtain ⟨pos', hnumber⟩ := exists_readNumber?_append h hrest pos
  exact ⟨pos', readValue_of_readNumber? hnumber hshort fuel depth⟩

/-- A word is read wherever it stands. -/
theorem readsBack_of_readWord? {v : Json} {c : Char} (word : Text) {n : Nat}
    (hv : v.write.toList = c :: word) (hc : c ≠ '"' ∧ c ≠ '[' ∧ c ≠ '\x7b')
    (h : ∀ rest, readWord? (c :: (word ++ rest)) = some (v, n, rest)) : ReadsBack depth v := by
  intro rest _ fuel hfuel pos
  rw [hv] at hfuel ⊢
  obtain ⟨fuel, rfl⟩ := Nat.exists_eq_add_one.2 (Nat.zero_lt_of_lt hfuel)
  refine ⟨pos + n, ?_⟩
  rw [List.cons_append, readValue, h]
  · rintro rest ⟨⟩
    exact hc.1 rfl
  · rintro rest ⟨⟩
    exact hc.2.1 rfl
  · rintro rest ⟨⟩
    exact hc.2.2 rfl

theorem toList_writeItems_cons (x y : Json) (items : List Json) :
    (writeItems (x :: y :: items)).toList
      = x.write.toList ++ ',' :: ' ' :: (writeItems (y :: items)).toList := by
  rw [writeItems, String.toList_append, String.toList_append, List.append_assoc]
  · rfl
  · exact List.cons_ne_nil y items

theorem writeItems_opens {y : Json} (h : Legible depth y) (items : List Json) :
    ∃ c more, (writeItems (y :: items)).toList = c :: more ∧ Opens c := by
  obtain ⟨c, more, hy, hc⟩ := h.opens
  cases items with
  | nil => exact ⟨c, more, hy, hc⟩
  | cons z items =>
    rw [toList_writeItems_cons, hy]
    exact ⟨c, _, rfl, hc⟩

/-- The items of a list are read one by one. -/
theorem exists_readItems {items : List Json} (hne : items ≠ [])
    (h : ∀ x ∈ items, Legible depth x) (hread : ∀ x ∈ items, ReadsBack depth x) (rest : Text)
    (fuel : Nat) (hfuel : (writeItems items).toList.length < fuel) (pos : Nat) :
    ∃ pos', readItems fuel depth ((writeItems items).toList ++ ']' :: rest) pos
      = .ok (items, rest, pos') := by
  induction items generalizing fuel pos with
  | nil => exact absurd rfl hne
  | cons x items ih =>
    obtain ⟨fuel, rfl⟩ := Nat.exists_eq_add_one.2 (Nat.zero_lt_of_lt hfuel)
    rw [List.forall_mem_cons] at h hread
    cases items with
    | nil =>
      obtain ⟨pos', hx⟩ := hread.1 _ (ends_bracket rest) fuel (Nat.lt_succ_iff.1 hfuel) pos
      rw [writeItems, readItems, hx]
      exact ⟨pos' + 1, rfl⟩
    | cons y items =>
      obtain ⟨c, more, hitems, hc⟩ := writeItems_opens (h.2 y List.mem_cons_self) items
      have hlength : (writeItems (x :: y :: items)).toList.length
          = x.write.toList.length + 2 + (writeItems (y :: items)).toList.length := by
        rw [toList_writeItems_cons, List.length_append, List.length_cons, List.length_cons]
        omega
      obtain ⟨pos₁, hx⟩ := hread.1 _
        (ends_comma (' ' :: (writeItems (y :: items)).toList ++ ']' :: rest)) fuel (by omega) pos
      obtain ⟨pos₂, hrest⟩ := ih (List.cons_ne_nil y items) h.2 hread.2 fuel (by omega)
        (pos₁ + 2)
      refine ⟨pos₂, ?_⟩
      have hcomma : ∀ u : Text, skipSpace (',' :: u) pos₁ = (',' :: u, pos₁) :=
        fun u => skipSpace_of_not rfl u pos₁
      have hskip : skipSpace (' ' :: (writeItems (y :: items)).toList ++ ']' :: rest) (pos₁ + 1)
          = ((writeItems (y :: items)).toList ++ ']' :: rest, pos₁ + 2) := by
        rw [hitems]
        exact skipSpace_blank hc.1 _ _
      rw [toList_writeItems_cons, List.append_assoc, readItems, List.cons_append, hx]
      simp only [hcomma, hskip, hrest]

/-- No blank is skipped where a value is over. -/
theorem Ends.skipSpace {rest : Text} (h : Ends rest) (pos : Nat) :
    skipSpace rest pos = (rest, pos) := by
  cases rest with
  | nil => rfl
  | cons c rest => rcases h c rfl with rfl | rfl | rfl <;> rfl

/-- A new key goes to the end. -/
theorem put_of_notMem {entries : List (String × Json)} {k : String}
    (h : k ∉ entries.map Prod.fst) (v : Json) : put entries k v = entries ++ [(k, v)] := by
  induction entries with
  | nil => rfl
  | cons kv entries ih =>
    rw [List.map_cons, List.mem_cons, not_or] at h
    rw [put, if_neg (Ne.symm h.1), ih h.2, List.cons_append]

theorem toList_writeEntries_cons (k : String) (v : Json) (e : String × Json)
    (entries : List (String × Json)) :
    (writeEntries ((k, v) :: e :: entries)).toList
      = (quote k).toList ++ ':' :: ' ' :: (v.write.toList ++
        ',' :: ' ' :: (writeEntries (e :: entries)).toList) := by
  rw [writeEntries]
  · simp only [String.toList_append, List.append_assoc]
    rfl
  · exact List.cons_ne_nil e entries

theorem toList_writeEntries_singleton (k : String) (v : Json) :
    (writeEntries [(k, v)]).toList = (quote k).toList ++ ':' :: ' ' :: v.write.toList := by
  rw [writeEntries]
  simp only [String.toList_append, List.append_assoc]
  rfl

/-- A key and its value are read, and after them the closing brace or the entries that follow. -/
theorem exists_readEntries_quote {k : String} {v : Json} (hlegible : Legible depth v)
    (hv : ReadsBack depth v) {done : List (String × Json)} (hk : k ∉ done.map Prod.fst)
    {after : Text} (hafter : Ends after) (fuel : Nat) (hfuel : v.write.toList.length ≤ fuel)
    (pos : Nat) :
    ∃ pos', ∀ rest,
      (after = '\x7d' :: rest → readEntries (fuel + 1) depth done
          ((quote k).toList ++ ':' :: ' ' :: (v.write.toList ++ after)) pos
        = .ok (done ++ [(k, v)], rest, pos' + 1)) ∧
      (after = ',' :: rest → readEntries (fuel + 1) depth done
          ((quote k).toList ++ ':' :: ' ' :: (v.write.toList ++ after)) pos
        = readEntries fuel depth (done ++ [(k, v)]) (skipSpace rest (pos' + 1)).1
          (skipSpace rest (pos' + 1)).2) := by
  obtain ⟨c, more, hc, hopens⟩ := hlegible.opens
  obtain ⟨pos₁, hkey⟩ := readString_flatMap k.toList (':' :: ' ' :: (v.write.toList ++ after)) pos
    [] (pos + 1)
  obtain ⟨pos₂, hvalue⟩ := hv _ hafter fuel hfuel (pos₁ + 2)
  have hcolon : ∀ u : Text, skipSpace (':' :: u) pos₁ = (':' :: u, pos₁) :=
    fun u => skipSpace_of_not rfl u pos₁
  have hskip : skipSpace (' ' :: (v.write.toList ++ after)) (pos₁ + 1)
      = (v.write.toList ++ after, pos₁ + 2) := by
    rw [hc]
    exact skipSpace_blank hopens.1 _ _
  refine ⟨pos₂, fun rest => ⟨?_, ?_⟩⟩
  all_goals
    rintro rfl
    rw [toList_quote, List.cons_append, List.append_assoc, List.singleton_append, readEntries, hkey]
    simp only [hcolon, hskip, hvalue, hafter.skipSpace, put_of_notMem hk, List.reverse_nil,
      List.nil_append, String.ofList_toList]

theorem writeEntries_opens (e : String × Json) (entries : List (String × Json)) :
    ∃ more, (writeEntries (e :: entries)).toList = '"' :: more := by
  obtain ⟨k, v⟩ := e
  cases entries with
  | nil => rw [toList_writeEntries_singleton, toList_quote]; exact ⟨_, rfl⟩
  | cons e entries => rw [toList_writeEntries_cons, toList_quote]; exact ⟨_, rfl⟩

/-- The entries of an object are read one by one. -/
theorem exists_readEntries {entries : List (String × Json)} (hne : entries ≠ [])
    (h : ∀ kv ∈ entries, Legible depth kv.2) (hread : ∀ kv ∈ entries, ReadsBack depth kv.2)
    (done : List (String × Json)) (hkeys : ((done ++ entries).map Prod.fst).Nodup) (rest : Text)
    (fuel : Nat) (hfuel : (writeEntries entries).toList.length < fuel) (pos : Nat) :
    ∃ pos', readEntries fuel depth done ((writeEntries entries).toList ++ '\x7d' :: rest) pos
      = .ok (done ++ entries, rest, pos') := by
  induction entries generalizing done fuel pos with
  | nil => exact absurd rfl hne
  | cons e entries ih =>
    obtain ⟨k, v⟩ := e
    obtain ⟨fuel, rfl⟩ := Nat.exists_eq_add_one.2 (Nat.zero_lt_of_lt hfuel)
    rw [List.forall_mem_cons] at h hread
    have hk : k ∉ done.map Prod.fst := by
      rw [List.map_append, List.nodup_append] at hkeys
      exact fun hmem => hkeys.2.2 k hmem k List.mem_cons_self rfl
    cases entries with
    | nil =>
      rw [toList_writeEntries_singleton, List.length_append, List.length_cons, List.length_cons]
        at hfuel
      obtain ⟨pos', hentry⟩ := exists_readEntries_quote h.1 hread.1 hk (ends_brace rest)
        fuel (by dsimp only; omega) pos
      refine ⟨pos' + 1, ?_⟩
      rw [toList_writeEntries_singleton, List.append_assoc, List.cons_append, List.cons_append]
      exact (hentry rest).1 rfl
    | cons e entries =>
      obtain ⟨more, hquote⟩ := writeEntries_opens e entries
      rw [toList_writeEntries_cons, List.length_append, List.length_cons, List.length_cons,
        List.length_append, List.length_cons, List.length_cons] at hfuel
      obtain ⟨pos₁, hentry⟩ := exists_readEntries_quote h.1 hread.1 hk
        (ends_comma (' ' :: (writeEntries (e :: entries)).toList ++ '\x7d' :: rest))
        fuel (by dsimp only; omega) pos
      have hconcat : done ++ (k, v) :: e :: entries = done ++ [(k, v)] ++ e :: entries := by
        rw [List.append_assoc, List.singleton_append]
      rw [hconcat] at hkeys ⊢
      obtain ⟨pos₂, hrest⟩ := ih (List.cons_ne_nil e entries) h.2 hread.2 _ hkeys fuel
        (by omega) (pos₁ + 2)
      have hskip : skipSpace (' ' :: (writeEntries (e :: entries)).toList ++ '\x7d' :: rest)
          (pos₁ + 1) = ((writeEntries (e :: entries)).toList ++ '\x7d' :: rest, pos₁ + 2) := by
        rw [hquote]
        exact skipSpace_blank rfl _ _
      refine ⟨pos₂, ?_⟩
      rw [toList_writeEntries_cons, List.append_assoc, List.cons_append, List.cons_append,
        List.append_assoc, List.cons_append, (hentry _).2 rfl, hskip]
      exact hrest

theorem readsBack_str (s : String) : ReadsBack depth (.str s) := by
  intro rest _ fuel hfuel pos
  have htext : (Json.str s).write.toList = '"' :: (s.toList.flatMap escape ++ ['"']) :=
    toList_quote s
  rw [htext] at hfuel ⊢
  obtain ⟨fuel, rfl⟩ := Nat.exists_eq_add_one.2 (Nat.zero_lt_of_lt hfuel)
  obtain ⟨pos', hs⟩ := readString_flatMap s.toList rest pos [] (pos + 1)
  refine ⟨pos', ?_⟩
  rw [List.cons_append, List.append_assoc, List.singleton_append, readValue, hs]
  simp only [List.reverse_nil, List.nil_append, String.ofList_toList]

theorem readsBack_arr {items : List Json} (h : ∀ x ∈ items, Legible depth x)
    (hread : ∀ x ∈ items, ReadsBack depth x) : ReadsBack (depth + 1) (.arr items) := by
  intro rest _ fuel hfuel pos
  have htext : (Json.arr items).write.toList = '[' :: ((writeItems items).toList ++ [']']) := by
    rw [write, String.toList_append, String.toList_append]
    rfl
  rw [htext] at hfuel ⊢
  rw [List.length_cons, List.length_append, List.length_singleton] at hfuel
  obtain ⟨fuel, rfl⟩ := Nat.exists_eq_add_one.2 (Nat.zero_lt_of_lt hfuel)
  rw [List.cons_append, List.append_assoc, List.singleton_append]
  cases items with
  | nil => exact ⟨_, rfl⟩
  | cons x items =>
    obtain ⟨c, more, hc, hopens⟩ := writeItems_opens (h x List.mem_cons_self) items
    obtain ⟨pos', hitems⟩ := exists_readItems (List.cons_ne_nil x items) h hread rest
      fuel (by omega) (pos + 1)
    refine ⟨pos', ?_⟩
    rw [hc, List.cons_append] at hitems ⊢
    rw [readValue, skipSpace_of_not hopens.1]
    dsimp only
    split
    next hclose => exact absurd (List.cons.inj hclose).1 hopens.2.1
    next => rw [hitems]

theorem readsBack_obj {entries : List (String × Json)} (h : ∀ kv ∈ entries, Legible depth kv.2)
    (hkeys : (entries.map Prod.fst).Nodup) (hread : ∀ kv ∈ entries, ReadsBack depth kv.2) :
    ReadsBack (depth + 1) (.obj entries) := by
  intro rest _ fuel hfuel pos
  have htext : (Json.obj entries).write.toList
      = '\x7b' :: ((writeEntries entries).toList ++ ['\x7d']) := by
    rw [write, String.toList_append, String.toList_append]
    rfl
  rw [htext] at hfuel ⊢
  rw [List.length_cons, List.length_append, List.length_singleton] at hfuel
  obtain ⟨fuel, rfl⟩ := Nat.exists_eq_add_one.2 (Nat.zero_lt_of_lt hfuel)
  rw [List.cons_append, List.append_assoc, List.singleton_append]
  cases entries with
  | nil => exact ⟨_, rfl⟩
  | cons e entries =>
    obtain ⟨more, hquote⟩ := writeEntries_opens e entries
    obtain ⟨pos', hentries⟩ := exists_readEntries (List.cons_ne_nil e entries) h hread []
      hkeys rest fuel (by omega) (pos + 1)
    refine ⟨pos', ?_⟩
    rw [hquote, List.cons_append] at hentries ⊢
    rw [readValue, skipSpace_of_not rfl]
    simp only [hentries, List.nil_append]
    rfl

/-- **Every legible document is read back**, wherever it stands. -/
theorem Legible.readsBack {v : Json} (h : Legible depth v) : ReadsBack depth v := by
  induction h with
  | null => exact readsBack_of_readWord? "ull".toList rfl (by decide) fun _ => rfl
  | bool b =>
    cases b with
    | false => exact readsBack_of_readWord? "alse".toList rfl (by decide) fun _ => rfl
    | true => exact readsBack_of_readWord? "rue".toList rfl (by decide) fun _ => rfl
  | @int _ i hshort =>
    obtain ⟨stop, hi⟩ := exists_readNumber?_int i
    exact readsBack_of_readNumber? hi hshort
  | finite hd =>
    obtain ⟨stop, hd⟩ := hd
    exact readsBack_of_readNumber? hd rfl
  | infinite negative =>
    cases negative with
    | false => exact readsBack_of_readWord? "nfinity".toList rfl (by decide) fun _ => rfl
    | true => exact readsBack_of_readWord? "Infinity".toList rfl (by decide) fun _ => rfl
  | nan => exact readsBack_of_readWord? "aN".toList rfl (by decide) fun _ => rfl
  | str s => exact readsBack_str s
  | arr h ih => exact readsBack_arr h ih
  | obj h hkeys ih => exact readsBack_obj h hkeys ih

/-- **A document is read as it was written.** -/
theorem read_write {v : Json} (h : Legible depth v) : read depth v.write.toList = .ok v := by
  have hpaired := paired_write v
  obtain ⟨c, more, hc, hopens⟩ := h.opens
  obtain ⟨pos', hread⟩ := h.readsBack [] (fun _ => nofun) (2 * v.write.toList.length + 2)
    (by omega) 0
  rw [List.append_nil] at hread
  rw [hc] at hread hpaired ⊢
  rw [read, skipSpace_of_not hopens.1]
  · simp only [hread, skipSpace, hpaired, if_true]
  · rintro rest ⟨⟩
    exact hopens.2.2 rfl

/-! ## Putting values into objects -/

theorem mem_put {entries : List (String × Json)} {k : String} {v : Json} {kv : String × Json}
    (h : kv ∈ put entries k v) : kv = (k, v) ∨ kv ∈ entries := by
  induction entries with
  | nil => exact .inl (List.mem_singleton.1 h)
  | cons e entries ih =>
    rw [put] at h
    split at h
    next heq => exact (List.mem_cons.1 h).imp (heq ▸ ·) (List.mem_cons_of_mem _)
    next =>
      rcases List.mem_cons.1 h with rfl | h
      · exact .inr List.mem_cons_self
      · exact (ih h).imp id (List.mem_cons_of_mem _)

/-- The keys of an object stay, and a new one goes to the end. -/
theorem map_fst_put (entries : List (String × Json)) (k : String) (v : Json) :
    (put entries k v).map Prod.fst = entries.map Prod.fst ∨
      k ∉ entries.map Prod.fst ∧ (put entries k v).map Prod.fst = entries.map Prod.fst ++ [k] := by
  induction entries with
  | nil => exact .inr ⟨List.not_mem_nil, rfl⟩
  | cons e entries ih =>
    rw [put]
    split
    next => exact .inl rfl
    next hne =>
      rw [List.map_cons, List.map_cons]
      refine ih.imp (congrArg _) fun ⟨hk, hput⟩ => ⟨?_, congrArg _ hput⟩
      rw [List.mem_cons, not_or]
      exact ⟨Ne.symm hne, hk⟩

/-- A legible value under a key leaves an object legible. -/
theorem Legible.put {entries : List (String × Json)} (h : Legible (depth + 1) (.obj entries))
    (k : String) {v : Json} (hv : Legible depth v) :
    Legible (depth + 1) (.obj (put entries k v)) := by
  cases h with
  | obj hvalues hkeys =>
    refine .obj (fun kv hkv => ?_) ?_
    · rcases mem_put hkv with rfl | hkv
      · exact hv
      · exact hvalues kv hkv
    · rcases map_fst_put entries k v with hput | ⟨hk, hput⟩
      · rw [hput]
        exact hkeys
      · rw [hput, ← List.concat_eq_append]
        exact List.Nodup.concat hk hkeys

end Sigil.Json
