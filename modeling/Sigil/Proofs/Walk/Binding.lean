import Mathlib.Data.List.Find
import Mathlib.Data.List.Forall2
import Mathlib.Data.List.Nodup
import Sigil.Proofs.ShortName.Words
import Sigil.Proofs.Walk.Lexical

/-!
# Proofs/Walk/Binding — no capture and no split

    same name written  ↔  same class and same private name meant

An occurrence means the innermost class around it whose body declares its text.  Two things go into
the equivalence.

**Every declaration has its own number.**  `declarations` lists what the classes of a tree declare
in the order in which the walk numbers it, and no class and name stand there twice
(`nodup_declarations`), whatever the trees and names look like.

**Every occurrence is written with the number of what it means** (`visit_eq_of_numbered`): the
tables that the recursion passes down are those of the classes around the occurrence.
-/

namespace Sigil

/-- Where a node stands in a sequence of trees: the number of its root and before it, the last one
first, the numbers of the children on the way down. -/
abbrev Address := List Nat

/-- A private name that the walk comes upon. -/
structure Occurrence (τ : Type) where
  /-- The node that is replaced. -/
  node : τ
  /-- Whether it is the name of a brand check. -/
  quoted : Bool
  /-- The classes around it with their addresses, innermost first. -/
  around : List (Address × τ)

namespace Occurrence

variable {τ : Type} [Tree τ]

/-- The innermost class around an occurrence whose body declares its text. -/
def home? (o : Occurrence τ) : Option (Address × τ) :=
  o.around.find? fun c => (Lexical.declared c.2).contains (Tree.text o.node)

/-- What an occurrence means: a class, by its address, and a private name declared there. -/
def meaning? (o : Occurrence τ) : Option (Address × Text) :=
  o.home?.map fun c => (c.1, Tree.text o.node)

/-- The edit that writes a name over an occurrence. -/
def edit (o : Occurrence τ) (name : Text) : Edit :=
  ⟨Tree.start o.node, Tree.stop o.node, if o.quoted then '\x27' :: (name ++ ['\x27']) else name⟩

/-- The edits of an occurrence, when `ν` gives the names: none if it means nothing. -/
def edits (ν : Address × Text → Text) (o : Occurrence τ) : List Edit :=
  o.meaning?.toList.map fun k => o.edit (ν k)

/-- What is written is the name, perhaps between quotes. -/
theorem mem_newText_edit {o : Occurrence τ} {name : Text} {x : Char}
    (h : x ∈ (o.edit name).newText) : x = '\x27' ∨ x ∈ name := by
  rw [edit] at h
  simp only at h
  split at h
  · simp only [List.mem_cons, List.mem_append, List.not_mem_nil, or_false] at h
    rcases h with rfl | h | rfl
    · exact .inl rfl
    · exact .inr h
    · exact .inl rfl
  · exact .inr h

end Occurrence

/-- The name an edit writes, without the quotes of a property key. -/
def Edit.bareName (e : Edit) : Text :=
  match e.newText with
  | '\x27' :: rest => rest.dropLast
  | name => name

namespace Lexical

variable {τ : Type} [Tree τ]

mutual

/-- The private names below a node at an address, in document order. -/
def occurrences (around : List (Address × τ)) (a : Address) (t : τ) : List (Occurrence τ) :=
  match Tree.kind t with
  | .classDef => occurrencesAll ((a, t) :: around) a 0 (Tree.children t)
  | .brandCheck =>
    (Tree.inField t .left).map (fun l => ⟨l, true, around⟩) ++
      occurrencesAll around a 0 (Tree.inField t .right)
  | .privateName => [⟨t, false, around⟩]
  | .member | .other => occurrencesAll around a 0 (Tree.children t)
termination_by (Tree.size t, 0)
decreasing_by
  · exact .left _ _ (Tree.size_children t)
  · exact .left _ _ (Tree.size_inField t .right)
  · exact .left _ _ (Tree.size_children t)

/-- The private names in nodes that stand side by side, numbered from `i`. -/
def occurrencesAll (around : List (Address × τ)) (a : Address) (i : Nat) :
    List τ → List (Occurrence τ)
  | [] => []
  | t :: ts => occurrences around (i :: a) t ++ occurrencesAll around a (i + 1) ts
termination_by ts => (total Tree.size ts, 1)
decreasing_by
  · exact Tree.lt_head t ts
  · exact Tree.lt_tail t ts

end

mutual

/-- What the classes below a node at an address declare, in the order in which they are opened. -/
def declarations (a : Address) (t : τ) : List (Address × Text) :=
  match Tree.kind t with
  | .classDef =>
    (declared t).eraseDups.map (fun x => (a, x)) ++ declarationsAll a 0 (Tree.children t)
  | .brandCheck => declarationsAll a 0 (Tree.inField t .right)
  | .privateName => []
  | .member | .other => declarationsAll a 0 (Tree.children t)
termination_by (Tree.size t, 0)
decreasing_by
  · exact .left _ _ (Tree.size_children t)
  · exact .left _ _ (Tree.size_inField t .right)
  · exact .left _ _ (Tree.size_children t)

/-- What the classes in nodes that stand side by side declare. -/
def declarationsAll (a : Address) (i : Nat) : List τ → List (Address × Text)
  | [] => []
  | t :: ts => declarations (i :: a) t ++ declarationsAll a (i + 1) ts
termination_by ts => (total Tree.size ts, 1)
decreasing_by
  · exact Tree.lt_head t ts
  · exact Tree.lt_tail t ts

end

/-- The occurrences in a sequence of trees that mean something, in document order. -/
def bound (roots : List τ) : List (Occurrence τ) :=
  (occurrencesAll [] [] 0 roots).filter fun o => o.meaning?.isSome

/-! ## Every declaration has its own number -/

/-- What is declared below a node is declared under its address, and what is declared in nodes side
by side under the addresses of these. -/
theorem suffix_of_mem_declarations :
    (∀ (t : τ) (a : Address), ∀ k ∈ declarations a t, a <:+ k.1) ∧
    ∀ (ts : List τ) (a : Address) (i : Nat), ∀ k ∈ declarationsAll a i ts,
      ∃ j, i ≤ j ∧ (j :: a) <:+ k.1 := by
  have hbelow : ∀ {j : Nat} {a b : Address}, 0 ≤ j ∧ (j :: a) <:+ b → a <:+ b := fun h =>
    (List.suffix_cons _ _).trans h.2
  refine Tree.induct (fun t hchildren hfields => ?_) ?_ (fun t ts ht hts => ?_)
  · intro a k hk
    rw [declarations] at hk
    cases hkind : Tree.kind t with
    | classDef =>
      simp only [hkind, List.mem_append, List.mem_map] at hk
      rcases hk with ⟨x, -, rfl⟩ | hk
      · exact List.suffix_rfl
      · exact hbelow (hchildren a 0 k hk).choose_spec
    | brandCheck =>
      simp only [hkind] at hk
      exact hbelow (hfields .right a 0 k hk).choose_spec
    | privateName =>
      simp only [hkind] at hk
      exact absurd hk List.not_mem_nil
    | member | other =>
      simp only [hkind] at hk
      exact hbelow (hchildren a 0 k hk).choose_spec
  · intro a i k hk
    rw [declarationsAll] at hk
    exact absurd hk List.not_mem_nil
  · intro a i k hk
    rw [declarationsAll, List.mem_append] at hk
    rcases hk with hk | hk
    · exact ⟨i, Nat.le_refl i, ht _ k hk⟩
    · obtain ⟨j, hij, hj⟩ := hts a (i + 1) k hk
      exact ⟨j, Nat.le_of_succ_le hij, hj⟩

/-- An address lies below one child only. -/
theorem child_unique {i j : Nat} {a b : Address} (hi : (i :: a) <:+ b) (hj : (j :: a) <:+ b) :
    i = j := by
  have hlen : (i :: a).length = (j :: a).length := rfl
  have h : (i :: a) <:+ (j :: a) := List.suffix_of_suffix_length_le hi hj (Nat.le_of_eq hlen)
  exact (List.cons.inj (h.eq_of_length hlen)).1

/-- A node does not lie below its own child. -/
theorem not_cons_suffix (i : Nat) (a : Address) : ¬ (i :: a) <:+ a := by
  intro h
  have := h.length_le
  rw [List.length_cons] at this
  omega

theorem nodup_eraseDups (l : List Text) : l.eraseDups.Nodup := by
  induction hn : l.length using Nat.strongRecOn generalizing l with
  | ind n ih =>
    subst hn
    cases l with
    | nil => exact List.nodup_nil
    | cons x l =>
      rw [List.eraseDups_cons]
      have hlen : (l.filter fun y => !y == x).length < (x :: l).length :=
        Nat.lt_succ_of_le (List.length_filter_le _ l)
      refine List.nodup_cons.2 ⟨fun h => ?_, ih _ hlen _ rfl⟩
      simpa using List.mem_eraseDups.1 h

/-- **No class and name are declared twice.** -/
theorem nodup_declarations :
    (∀ (t : τ) (a : Address), (declarations a t).Nodup) ∧
    ∀ (ts : List τ) (a : Address) (i : Nat), (declarationsAll a i ts).Nodup := by
  refine Tree.induct (fun t hchildren hfields => ?_) ?_ (fun t ts ht hts => ?_)
  · intro a
    rw [declarations]
    cases Tree.kind t with
    | classDef =>
      refine List.nodup_append'.2 ⟨?_, hchildren a 0, ?_⟩
      · exact (nodup_eraseDups _).map fun x y h => (Prod.mk.inj h).2
      · -- below the class all addresses are longer
        intro k hown hbelow
        obtain ⟨x, -, rfl⟩ := List.mem_map.1 hown
        obtain ⟨j, -, hj⟩ := suffix_of_mem_declarations.2 _ a 0 _ hbelow
        exact not_cons_suffix j a hj
    | brandCheck => exact hfields .right a 0
    | privateName => exact List.nodup_nil
    | member | other => exact hchildren a 0
  · intro a i
    rw [declarationsAll]
    exact List.nodup_nil
  · intro a i
    rw [declarationsAll]
    refine List.nodup_append'.2 ⟨ht _, hts a (i + 1), ?_⟩
    intro k hfirst hrest
    obtain ⟨j, hij, hj⟩ := suffix_of_mem_declarations.2 ts a (i + 1) k hrest
    have := child_unique (suffix_of_mem_declarations.1 t _ k hfirst) hj
    omega

/-! ## Every occurrence is written with the number of what it means -/

/-- `ν` numbers a list of declarations from `n`. -/
def Numbered (ν : Address × Text → Text) (n : Nat) (keys : List (Address × Text)) : Prop :=
  ∀ p ∈ keys.zipIdx n, ν p.1 = ShortName.name p.2

theorem numbered_append {ν : Address × Text → Text} {n : Nat} {xs ys : List (Address × Text)} :
    Numbered ν n (xs ++ ys) ↔ Numbered ν n xs ∧ Numbered ν (n + xs.length) ys := by
  rw [Numbered, List.zipIdx_append, List.forall_mem_append]
  rfl

/-- The table of a class at an address, when `ν` gives the names. -/
def tableOf (ν : Address × Text → Text) (c : Address × τ) : ScopeTable :=
  (declared c.2).eraseDups.map fun x => (x, ν (c.1, x))

theorem length_tableOf (ν : Address × Text → Text) (c : Address × τ) :
    (tableOf ν c).length = ((declared c.2).eraseDups.map fun x => (c.1, x)).length := by
  rw [tableOf, List.length_map, List.length_map]

theorem freshTable_eq {ν : Address × Text → Text} {n : Nat} {a : Address} {t : τ}
    (h : Numbered ν n ((declared t).eraseDups.map fun x => (a, x))) :
    freshTable n (declared t) = tableOf ν (a, t) := by
  rw [freshTable, tableOf]
  refine List.ext_getElem (by simp) fun i hi _ => ?_
  have hi : i < (declared t).eraseDups.length := by simpa using hi
  have := h ((a, (declared t).eraseDups[i]), n + i) (by
    rw [List.mem_iff_getElem]
    exact ⟨i, by simpa using hi, by simp⟩)
  simp [this]

theorem lookup_map_graph (g : Text → Text) (names : List Text) (x : Text) :
    (names.map fun y => (y, g y)).lookup x = if x ∈ names then some (g x) else none := by
  induction names with
  | nil => rfl
  | cons y names ih =>
    rw [List.map_cons, List.lookup_cons, ih]
    by_cases h : x = y
    · simp [h]
    · simp [h, beq_eq_false_iff_ne.2 h]

theorem lookup_tableOf (ν : Address × Text → Text) (c : Address × τ) (x : Text) :
    (tableOf ν c).lookup x = if x ∈ declared c.2 then some (ν (c.1, x)) else none := by
  rw [tableOf, lookup_map_graph (fun x => ν (c.1, x))]
  simp only [List.mem_eraseDups]

/-- Looking a text up in the tables of the classes around an occurrence finds what it means. -/
theorem editOf_tables (ν : Address × Text → Text) (around : List (Address × τ)) (quoted : Bool)
    (t : τ) : editOf (around.map (tableOf ν)) quoted t
      = Occurrence.edits ν ⟨t, quoted, around⟩ := by
  have hlookup : ((around.map (tableOf ν)).findSome? fun table => table.lookup (Tree.text t))
      = (Occurrence.meaning? ⟨t, quoted, around⟩).map ν := by
    rw [List.findSome?_map, Occurrence.meaning?, Occurrence.home?]
    induction around with
    | nil => rfl
    | cons c around ih =>
      rw [List.findSome?_cons, List.find?_cons, Function.comp_apply, lookup_tableOf]
      by_cases hc : Tree.text t ∈ declared c.2
      · simp [hc]
      · simpa [hc] using ih
  rw [editOf, hlookup, Occurrence.edits]
  cases Occurrence.meaning? ⟨t, quoted, around⟩ <;> rfl

/-- A part of a tree was renamed as `ν` says: the counter went past the part's declarations, and the
edits are those of its occurrences. -/
structure Renames (ν : Address × Text → Text) (n : Nat) (keys : List (Address × Text))
    (os : List (Occurrence τ)) (f : Found) : Prop where
  count : f.count = n + keys.length
  edits : f.edits = os.flatMap (Occurrence.edits ν)

/-- **The recursion writes what `ν` says**, if `ν` numbers the declarations in the order in which it
meets them. -/
theorem visit_eq_of_numbered (ν : Address × Text → Text) :
    (∀ (t : τ) (around : List (Address × τ)) (a : Address) (n : Nat),
      Numbered ν n (declarations a t) → Renames ν n (declarations a t) (occurrences around a t)
        (visit (around.map (tableOf ν)) n t)) ∧
    ∀ (ts : List τ) (around : List (Address × τ)) (a : Address) (i n : Nat),
      Numbered ν n (declarationsAll a i ts) →
        Renames ν n (declarationsAll a i ts) (occurrencesAll around a i ts)
          (visitAll (around.map (tableOf ν)) n ts) := by
  refine Tree.induct (fun t hchildren hfields => ?_) ?_ (fun t ts ht hts => ?_)
  · intro around a n hn
    rw [declarations] at hn ⊢
    rw [occurrences, visit]
    cases hk : Tree.kind t with
    | classDef =>
      simp only [hk] at hn ⊢
      rw [numbered_append] at hn
      have hbelow := hchildren ((a, t) :: around) a 0 _ hn.2
      rw [List.map_cons, ← length_tableOf ν (a, t)] at hbelow
      rw [freshTable_eq hn.1]
      refine ⟨?_, hbelow.edits⟩
      rw [hbelow.count, List.length_append, length_tableOf, Nat.add_assoc]
    | brandCheck =>
      simp only [hk] at hn ⊢
      have hright := hfields .right around a 0 n hn
      refine ⟨hright.count, ?_⟩
      have hleft : editOf (around.map (tableOf ν)) true
          = fun l => Occurrence.edits ν ⟨l, true, around⟩ := funext (editOf_tables ν around true)
      rw [hright.edits, hleft, List.flatMap_append, List.flatMap_map]
    | privateName =>
      refine ⟨rfl, ?_⟩
      rw [editOf_tables, List.flatMap_singleton]
    | member | other =>
      simp only [hk] at hn ⊢
      exact hchildren around a 0 n hn
  · intro around a i n _
    rw [declarationsAll, occurrencesAll, visitAll]
    exact ⟨rfl, rfl⟩
  · intro around a i n hn
    rw [declarationsAll, numbered_append] at hn
    have hfirst := ht around (i :: a) n hn.1
    have hrest := hts around a (i + 1) (n + (declarations (i :: a) t).length) hn.2
    rw [declarationsAll, occurrencesAll, visitAll, hfirst.count]
    refine ⟨?_, ?_⟩
    · rw [hrest.count, List.length_append, Nat.add_assoc]
    · rw [hfirst.edits, hrest.edits, List.flatMap_append]

/-! ## What occurrences mean is declared -/

/-- The classes around an occurrence in a part of a tree are around the part or have their names
among the declarations in it. -/
theorem declared_of_mem_around :
    (∀ (t : τ) (around : List (Address × τ)) (a : Address), ∀ o ∈ occurrences around a t,
      ∀ c ∈ o.around, c ∈ around ∨ ∀ x ∈ declared c.2, (c.1, x) ∈ declarations a t) ∧
    ∀ (ts : List τ) (around : List (Address × τ)) (a : Address) (i : Nat),
      ∀ o ∈ occurrencesAll around a i ts, ∀ c ∈ o.around,
        c ∈ around ∨ ∀ x ∈ declared c.2, (c.1, x) ∈ declarationsAll a i ts := by
  refine Tree.induct (fun t hchildren hfields => ?_) ?_ (fun t ts ht hts => ?_)
  · intro around a o ho c hc
    rw [occurrences] at ho
    rw [declarations]
    cases hk : Tree.kind t with
    | classDef =>
      simp only [hk] at ho ⊢
      rcases hchildren _ a 0 o ho c hc with hmem | hbelow
      · rcases List.mem_cons.1 hmem with rfl | hmem
        · refine .inr fun x hx => List.mem_append_left _ ?_
          exact List.mem_map_of_mem (List.mem_eraseDups.2 hx)
        · exact .inl hmem
      · exact .inr fun x hx => List.mem_append_right _ (hbelow x hx)
    | brandCheck =>
      simp only [hk, List.mem_append, List.mem_map] at ho ⊢
      rcases ho with ⟨l, -, rfl⟩ | ho
      · exact .inl hc
      · exact hfields .right around a 0 o ho c hc
    | privateName =>
      simp only [hk, List.mem_singleton] at ho
      subst ho
      exact .inl hc
    | member | other =>
      simp only [hk] at ho ⊢
      exact hchildren around a 0 o ho c hc
  · intro around a i o ho
    rw [occurrencesAll] at ho
    exact absurd ho List.not_mem_nil
  · intro around a i o ho c hc
    rw [occurrencesAll, List.mem_append] at ho
    rw [declarationsAll]
    rcases ho with ho | ho
    · exact (ht around _ o ho c hc).imp_right fun hx x hmem => List.mem_append_left _ (hx x hmem)
    · exact (hts around a _ o ho c hc).imp_right fun hx x hmem =>
        List.mem_append_right _ (hx x hmem)

/-- Whatever an occurrence in a sequence of trees means is declared there. -/
theorem meaning_mem_declarationsAll {roots : List τ} {o : Occurrence τ} {k : Address × Text}
    (ho : o ∈ occurrencesAll [] [] 0 roots) (hk : o.meaning? = some k) :
    k ∈ declarationsAll [] 0 roots := by
  obtain ⟨c, hc, rfl⟩ := Option.map_eq_some_iff.1 hk
  rw [Occurrence.home?] at hc
  have hx : Tree.text o.node ∈ declared c.2 := by simpa using List.find?_some hc
  rcases declared_of_mem_around.2 roots [] [] 0 o ho c (List.mem_of_find?_eq_some hc) with h | h
  · exact absurd h List.not_mem_nil
  · exact h _ hx

/-! ## Names and meanings -/

theorem bareName_edit (o : Occurrence τ) (n : Nat) :
    (o.edit (ShortName.name n)).bareName = ShortName.name n := by
  rw [Edit.bareName, Occurrence.edit]
  cases o.quoted with
  | true => exact List.dropLast_concat
  | false => rfl

/-- The edits of occurrences are those of the occurrences that mean something, one each. -/
theorem forall₂_edits (ν : Address × Text → Text) (os : List (Occurrence τ)) :
    List.Forall₂ (fun e o => ∃ k, o.meaning? = some k ∧ e = o.edit (ν k))
      (os.flatMap (Occurrence.edits ν)) (os.filter fun o => o.meaning?.isSome) := by
  induction os with
  | nil => exact .nil
  | cons o os ih =>
    rw [List.flatMap_cons, List.filter_cons, Occurrence.edits]
    cases h : o.meaning? with
    | none => exact ih
    | some k => exact .cons ⟨k, h, rfl⟩ ih

/-- The short name of a declaration: that of its place in a list of them, counted from `n`. -/
def numbering (n : Nat) (keys : List (Address × Text)) (k : Address × Text) : Text :=
  ShortName.name (n + keys.idxOf k)

theorem numbered_numbering (n : Nat) {keys : List (Address × Text)} (h : keys.Nodup) :
    Numbered (numbering n keys) n keys := by
  rintro ⟨k, m⟩ hk
  obtain ⟨hnm, hm, hget⟩ := List.mem_zipIdx hk
  have hindex : keys.idxOf k = m - n := by
    rw [hget]
    exact h.idxOf_getElem _ _
  rw [numbering, hindex]
  exact congrArg ShortName.name (Nat.add_sub_cancel' hnm)

theorem numbering_inj {n : Nat} {keys : List (Address × Text)} {k l : Address × Text}
    (hk : k ∈ keys) : numbering n keys k = numbering n keys l ↔ k = l := by
  refine ⟨fun h => ?_, fun h => h ▸ rfl⟩
  have hindex := ShortName.name_injective h
  exact (List.idxOf_inj hk).1 (Nat.add_left_cancel hindex)

/-- The edits of a walk over some trees, short names starting from `n`. -/
def walked (n : Nat) (roots : List τ) : List Edit :=
  (roots.foldl Walker.walk { scopes := { count := n } }).edits

theorem walked_eq (n : Nat) (roots : List τ) :
    walked n roots = (occurrencesAll [] [] 0 roots).flatMap
      (Occurrence.edits (numbering n (declarationsAll [] 0 roots))) := by
  have h := (visit_eq_of_numbered (numbering n (declarationsAll [] 0 roots))).2 roots [] [] 0 n
    (numbered_numbering n (nodup_declarations.2 roots [] 0))
  rw [walked, Walk.foldl_walk]
  exact h.edits

/-- Every edit of a walk writes a short name over an occurrence. -/
theorem exists_name_of_mem_walked {n : Nat} {roots : List τ} {e : Edit} (h : e ∈ walked n roots) :
    ∃ (o : Occurrence τ) (i : Nat), e = o.edit (ShortName.name i) := by
  rw [walked_eq] at h
  obtain ⟨o, -, he⟩ := List.mem_flatMap.1 h
  obtain ⟨k, -, rfl⟩ := List.mem_map.1 he
  exact ⟨o, _, rfl⟩

/-- **No capture and no split.**  The walk replaces just the occurrences that mean something, in
document order, and two of them get the same name iff they mean the same name of the same class. -/
theorem bareName_eq_iff (n : Nat) (roots : List τ) :
    (walked n roots).map (fun e => (e.start, e.stop))
        = (bound roots).map (fun o => (Tree.start o.node, Tree.stop o.node)) ∧
      ∀ p ∈ (walked n roots).zip (bound roots), ∀ q ∈ (walked n roots).zip (bound roots),
        p.1.bareName = q.1.bareName ↔ p.2.meaning? = q.2.meaning? := by
  have hall := forall₂_edits (numbering n (declarationsAll [] 0 roots))
    (occurrencesAll [] [] 0 roots)
  rw [← walked_eq, ← bound] at hall
  refine ⟨?_, ?_⟩
  · rw [← List.forall₂_eq_eq_eq, List.forall₂_map_left_iff, List.forall₂_map_right_iff]
    refine hall.imp fun e o => ?_
    rintro ⟨k, -, rfl⟩
    rfl
  · rintro ⟨e, o⟩ hp ⟨f, u⟩ hq
    obtain ⟨k, hk, rfl⟩ := List.forall₂_zip hall hp
    obtain ⟨l, hl, rfl⟩ := List.forall₂_zip hall hq
    have ho : o ∈ occurrencesAll [] [] 0 roots := (List.mem_filter.1 (List.of_mem_zip hp).2).1
    rw [numbering, numbering, bareName_edit, bareName_edit, hk, hl, Option.some_inj]
    exact numbering_inj (meaning_mem_declarationsAll ho hk)

/-- The tree of `class{#x}` from an offset on. -/
def single (n : Int) : Node Kind :=
  let x : Node Kind := .mk .privateName (n + 6) (n + 8) ['#', 'x'] [] []
  let member : Node Kind := .mk .member (n + 6) (n + 8) [] [x] [(.name, x)]
  let body : Node Kind := .mk .other (n + 5) (n + 9) [] [member] []
  .mk .classDef n (n + 9) [] [body] [(.body, body)]

theorem bareName_eq_iff_siblings :
    ∃ p ∈ (walked 0 [single 0, single 9]).zip (bound [single 0, single 9]),
      ∃ q ∈ (walked 0 [single 0, single 9]).zip (bound [single 0, single 9]),
        p.2.meaning? ≠ q.2.meaning? ∧ p.1.bareName ≠ q.1.bareName := by
  have hwalked : walked 0 [single 0, single 9] = [⟨6, 8, ['$', 'a']⟩, ⟨15, 17, ['$', 'b']⟩] := by
    rw [walked_eq]
    simp only [declarationsAll, declarations, occurrencesAll, occurrences, single, Tree.kind,
      Tree.children, Node.kind, Node.children, id]
    with_unfolding_all rfl
  have hbound : ∃ o u : Occurrence (Node Kind), bound [single 0, single 9] = [o, u] ∧
      o.meaning? = some ([0], ['#', 'x']) ∧ u.meaning? = some ([1], ['#', 'x']) := by
    simp only [bound, occurrencesAll, occurrences, single, Tree.kind, Tree.children, Node.kind,
      Node.children, id]
    exact ⟨_, _, rfl, rfl, rfl⟩
  obtain ⟨o, u, hb, ho, hu⟩ := hbound
  have hzip : (walked 0 [single 0, single 9]).zip (bound [single 0, single 9])
      = [(⟨6, 8, ['$', 'a']⟩, o), (⟨15, 17, ['$', 'b']⟩, u)] := by
    rw [hwalked, hb]
    rfl
  have hp := hzip ▸ List.mem_cons_self
  have hq := hzip ▸ List.mem_cons_of_mem _ List.mem_cons_self
  have hne : o.meaning? ≠ u.meaning? := by
    rw [ho, hu]
    decide
  exact ⟨_, hp, _, hq, hne, fun h => hne (((bareName_eq_iff 0 _).2 _ hp _ hq).1 h)⟩

end Lexical

end Sigil
