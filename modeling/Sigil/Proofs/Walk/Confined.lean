import Sigil.Proofs.Walk.Binding

/-!
# Proofs/Walk/Confined — names outside the body of their class

    class A { #x; m() { class B extends this.#x { #x } } }

Names are confined to the body of the class that declares them, so the heritage of `B` means the
`#x` of `A`.  The walk opens `B` around everything below its node and writes the name of `B` there
(`walked_heritage`).

`placements` lists what `occurrences` lists, and with each occurrence the classes in whose bodies it
lies; seen from these alone it is `Placement.confined`.  The walk does as if names were confined
exactly where every occurrence lies in the body of the class that catches it
(`walked_eq_confined_iff`).
-/

namespace Sigil

/-- A private name that the walk comes upon, with the classes in whose bodies it lies. -/
structure Placement (τ : Type) extends Occurrence τ where
  /-- Of the classes around it, those whose bodies it is in. -/
  inside : List (Address × τ)

namespace Placement

variable {τ : Type}

/-- The occurrence as it is when names are confined to bodies. -/
def confined (p : Placement τ) : Occurrence τ := { p.toOccurrence with around := p.inside }

/-- The classes around a placement have addresses of their own, and those in whose bodies it lies
are some of them, in their order. -/
structure Sound (p : Placement τ) : Prop where
  nodup : (p.around.map (·.1)).Nodup
  sublist : p.inside.Sublist p.around

end Placement

/-- Addresses that get shorter from the inside out, all shorter than `n`. -/
def Descending {τ : Type} (n : Nat) (around : List (Address × τ)) : Prop :=
  (around.Pairwise fun c d => d.1.length < c.1.length) ∧ ∀ c ∈ around, c.1.length < n

namespace Descending

variable {τ : Type} {n : Nat} {around : List (Address × τ)}

theorem cons {a : Address} (h : Descending a.length around) (t : τ) :
    Descending (a.length + 1) ((a, t) :: around) := by
  refine ⟨List.pairwise_cons.2 ⟨h.2, h.1⟩, fun c hc => ?_⟩
  rcases List.mem_cons.1 hc with rfl | hc
  · exact Nat.lt_succ_self _
  · exact Nat.lt_succ_of_lt (h.2 c hc)

theorem succ (h : Descending n around) : Descending (n + 1) around :=
  ⟨h.1, fun c hc => Nat.lt_succ_of_lt (h.2 c hc)⟩

theorem nodup (h : Descending n around) : (around.map (·.1)).Nodup := by
  refine List.pairwise_map.2 (h.1.imp fun hlt heq => ?_)
  exact Nat.lt_irrefl _ (heq ▸ hlt)

end Descending

namespace Lexical

variable {τ : Type} [Tree τ]

open scoped Classical in
/-- The classes in whose bodies a child of a class lies. -/
noncomputable def insideOf (inside : List (Address × τ)) (a : Address) (t c : τ) :
    List (Address × τ) :=
  if Tree.child? t .body = some c then (a, t) :: inside else inside

mutual

/-- The private names below a node at an address, in document order. -/
noncomputable def placements (around inside : List (Address × τ)) (a : Address) (t : τ) :
    List (Placement τ) :=
  match Tree.kind t with
  | .classDef => placementsAll ((a, t) :: around) (insideOf inside a t) a 0 (Tree.children t)
  | .brandCheck =>
    (Tree.inField t .left).map (fun l => ⟨⟨l, true, around⟩, inside⟩) ++
      placementsAll around (fun _ => inside) a 0 (Tree.inField t .right)
  | .privateName => [⟨⟨t, false, around⟩, inside⟩]
  | .member | .other => placementsAll around (fun _ => inside) a 0 (Tree.children t)
termination_by (Tree.size t, 0)
decreasing_by
  · exact .left _ _ (Tree.size_children t)
  · exact .left _ _ (Tree.size_inField t .right)
  · exact .left _ _ (Tree.size_children t)

/-- The private names in nodes that stand side by side, numbered from `i`; each node may lie in the
bodies of other classes. -/
noncomputable def placementsAll (around : List (Address × τ)) (inside : τ → List (Address × τ))
    (a : Address) (i : Nat) : List τ → List (Placement τ)
  | [] => []
  | t :: ts => placements around (inside t) (i :: a) t ++ placementsAll around inside a (i + 1) ts
termination_by ts => (total Tree.size ts, 1)
decreasing_by
  · exact Tree.lt_head t ts
  · exact Tree.lt_tail t ts

end

/-- Placements are occurrences, with more said about them. -/
theorem map_placements :
    (∀ (t : τ) (around inside : List (Address × τ)) (a : Address),
      (placements around inside a t).map Placement.toOccurrence = occurrences around a t) ∧
    ∀ (ts : List τ) (around : List (Address × τ)) (inside : τ → List (Address × τ)) (a : Address)
      (i : Nat), (placementsAll around inside a i ts).map Placement.toOccurrence
        = occurrencesAll around a i ts := by
  refine Tree.induct (fun t hchildren hfields => ?_) ?_ (fun t ts ht hts => ?_)
  · intro around inside a
    rw [placements, occurrences]
    cases Tree.kind t with
    | classDef => exact hchildren _ _ a 0
    | brandCheck =>
      simp only [List.map_append, List.map_map, hfields .right]
      rfl
    | privateName => rfl
    | member | other => exact hchildren _ _ a 0
  · intro around inside a i
    rw [placementsAll, occurrencesAll]
    rfl
  · intro around inside a i
    rw [placementsAll, occurrencesAll, List.map_append, ht, hts]

/-! ## Classes around and classes inside -/

theorem sublist_insideOf {around inside : List (Address × τ)} (h : inside.Sublist around)
    (a : Address) (t c : τ) : (insideOf inside a t c).Sublist ((a, t) :: around) := by
  rw [insideOf]
  split
  · exact h.cons_cons _
  · exact h.cons _

/-- **Every placement is sound.** -/
theorem sound_of_mem_placements :
    (∀ (t : τ) (around inside : List (Address × τ)) (a : Address), Descending a.length around →
      inside.Sublist around → ∀ p ∈ placements around inside a t, Placement.Sound p) ∧
    ∀ (ts : List τ) (around : List (Address × τ)) (inside : τ → List (Address × τ)) (a : Address)
      (i : Nat), Descending (a.length + 1) around → (∀ t, (inside t).Sublist around) →
        ∀ p ∈ placementsAll around inside a i ts, Placement.Sound p := by
  refine Tree.induct (fun t hchildren hfields => ?_) ?_ (fun t ts ht hts => ?_)
  · intro around inside a hn hsub p hp
    rw [placements] at hp
    cases hk : Tree.kind t with
    | classDef =>
      simp only [hk] at hp
      exact hchildren _ _ a 0 (hn.cons t) (sublist_insideOf hsub a t) p hp
    | brandCheck =>
      simp only [hk, List.mem_append, List.mem_map] at hp
      rcases hp with ⟨l, -, rfl⟩ | hp
      · exact ⟨hn.nodup, hsub⟩
      · exact hfields .right _ _ a 0 hn.succ (fun _ => hsub) p hp
    | privateName =>
      simp only [hk, List.mem_singleton] at hp
      subst hp
      exact ⟨hn.nodup, hsub⟩
    | member | other =>
      simp only [hk] at hp
      exact hchildren _ _ a 0 hn.succ (fun _ => hsub) p hp
  · intro around inside a i _ _ p hp
    rw [placementsAll] at hp
    exact absurd hp List.not_mem_nil
  · intro around inside a i hn hsub p hp
    rw [placementsAll, List.mem_append] at hp
    rcases hp with hp | hp
    · exact ht around (inside t) (i :: a) hn (hsub t) p hp
    · exact hts around inside a (i + 1) hn hsub p hp

/-! ## What catches an occurrence -/

section

variable {α β : Type}

/-- What is found in a list is found in a part of it that has it. -/
theorem find?_of_sublist {q : α → Bool} {l l' : List α} {x : α} (h : l'.Sublist l) (hn : l.Nodup)
    (hx : l.find? q = some x) (hmem : x ∈ l') : l'.find? q = some x := by
  induction h with
  | slnil => exact hx
  | cons y hsub ih =>
    obtain ⟨hy, hn⟩ := List.nodup_cons.1 hn
    have hne : y ≠ x := fun e => hy (hsub.subset (e ▸ hmem))
    rw [List.find?_cons] at hx
    split at hx
    · exact absurd (Option.some.inj hx) hne
    · exact ih hn hx hmem
  | cons_cons y hsub ih =>
    obtain ⟨hy, hn⟩ := List.nodup_cons.1 hn
    rw [List.find?_cons] at hx ⊢
    split at hx
    · exact hx
    · next hq =>
      refine ih hn hx ((List.mem_cons.1 hmem).resolve_left fun e => ?_)
      rw [← e, List.find?_some hx] at hq
      cases hq

/-- Lists put together from longer and from shorter parts are equal only if all the parts are. -/
theorem forall_eq_of_flatMap_eq {l : List α} {f g : α → List β}
    (hle : ∀ x ∈ l, (g x).length ≤ (f x).length) (h : l.flatMap f = l.flatMap g) :
    ∀ x ∈ l, f x = g x := by
  have hlen : ∀ l : List α, (∀ x ∈ l, (g x).length ≤ (f x).length) →
      (l.flatMap g).length ≤ (l.flatMap f).length := by
    intro l hle
    induction l with
    | nil => exact Nat.le_refl _
    | cons x l ih =>
      obtain ⟨hx, hl⟩ := List.forall_mem_cons.1 hle
      simp only [List.flatMap_cons, List.length_append]
      exact Nat.add_le_add hx (ih hl)
  induction l with
  | nil => exact fun x hx => absurd hx List.not_mem_nil
  | cons x l ih =>
    obtain ⟨hx, hl⟩ := List.forall_mem_cons.1 hle
    rw [List.flatMap_cons, List.flatMap_cons] at h
    have hsum := congrArg List.length h
    simp only [List.length_append] at hsum
    have hrest := hlen l hl
    obtain ⟨hhead, htail⟩ := List.append_inj h (by omega)
    exact List.forall_mem_cons.2 ⟨hhead, ih hl htail⟩

end

/-- A class that catches an occurrence still does when names are confined, if the occurrence lies in
its body. -/
theorem home?_confined {p : Placement τ} (hp : p.Sound) {c : Address × τ} (hc : p.home? = some c)
    (hmem : c ∈ p.inside) : p.confined.home? = some c :=
  find?_of_sublist hp.sublist (List.Nodup.of_map _ hp.nodup) hc hmem

/-- What means something when names are confined means something to the walk. -/
theorem isSome_meaning?_of_confined {p : Placement τ} (hp : p.Sound)
    (h : p.confined.meaning?.isSome) : p.meaning?.isSome := by
  rw [Occurrence.meaning?, Option.isSome_map] at h ⊢
  exact hp.sublist.find?_isSome h

/-- **An occurrence keeps its meaning** when names are confined, iff it lies in the body of the
class that catches it. -/
theorem meaning?_confined_iff {p : Placement τ} (hp : p.Sound) :
    p.meaning? = p.confined.meaning? ↔ ∀ c, p.home? = some c → c ∈ p.inside := by
  constructor
  · intro h c hc
    rw [Occurrence.meaning?, Occurrence.meaning?, hc, Option.map_some] at h
    obtain ⟨d, hd, hdc⟩ := Option.map_eq_some_iff.1 h.symm
    have hmem : d ∈ p.inside := List.mem_of_find?_eq_some hd
    have hcd : d = c := List.inj_on_of_nodup_map hp.nodup (hp.sublist.subset hmem)
      (List.mem_of_find?_eq_some hc) (Prod.mk.inj hdc).1
    exact hcd ▸ hmem
  · intro h
    cases hhome : p.home? with
    | none =>
      have hnone : p.meaning? = none := by rw [Occurrence.meaning?, hhome, Option.map_none]
      rw [hnone]
      cases hc : p.confined.meaning? with
      | none => rfl
      | some k =>
        have := isSome_meaning?_of_confined hp (Option.isSome_of_eq_some hc)
        rw [hnone] at this
        cases this
    | some c =>
      rw [Occurrence.meaning?, Occurrence.meaning?, hhome, home?_confined hp hhome (h c hhome)]
      rfl

/-! ## What is written over it -/

theorem length_edits (ν : Address × Text → Text) (o : Occurrence τ) :
    (o.edits ν).length = if o.meaning?.isSome then 1 else 0 := by
  rw [Occurrence.edits, List.length_map]
  cases o.meaning? <;> rfl

/-- An occurrence is written alike iff it means the same. -/
theorem edits_confined_iff {n : Nat} {roots : List τ} {p : Placement τ}
    (ho : p.toOccurrence ∈ occurrencesAll [] [] 0 roots) :
    p.edits (numbering n (declarationsAll [] 0 roots))
        = p.confined.edits (numbering n (declarationsAll [] 0 roots)) ↔
      p.meaning? = p.confined.meaning? := by
  constructor
  · intro h
    have hlen := congrArg List.length h
    rw [length_edits, length_edits] at hlen
    rw [Occurrence.edits, Occurrence.edits] at h
    cases hk : p.meaning? with
    | none =>
      cases hl : p.confined.meaning? with
      | none => rfl
      | some l => simp [hk, hl] at hlen
    | some k =>
      cases hl : p.confined.meaning? with
      | none => simp [hk, hl] at hlen
      | some l =>
        rw [hk, hl] at h
        have hname : (p.edit (numbering n (declarationsAll [] 0 roots) k)).bareName
            = (p.edit (numbering n (declarationsAll [] 0 roots) l)).bareName :=
          congrArg Edit.bareName (List.cons.inj h).1
        rw [numbering, numbering, bareName_edit, bareName_edit] at hname
        exact congrArg some ((numbering_inj (meaning_mem_declarationsAll ho hk)).1 hname)
  · intro h
    rw [Occurrence.edits, Occurrence.edits, h]
    rfl

/-- The edits of a walk that confines names to bodies, short names starting from `n`. -/
noncomputable def confined (n : Nat) (roots : List τ) : List Edit :=
  (placementsAll [] (fun _ => []) [] 0 roots).flatMap fun p =>
    p.confined.edits (numbering n (declarationsAll [] 0 roots))

/-- **Where the walk confines names.**  It finds the edits of a walk that confines names to the
bodies of their classes exactly if every occurrence that a class catches lies in the body of this
class. -/
theorem walked_eq_confined_iff (n : Nat) (roots : List τ) :
    walked n roots = confined n roots ↔
      ∀ p ∈ placementsAll [] (fun _ => []) [] 0 roots, ∀ c, p.home? = some c → c ∈ p.inside := by
  have hsound : ∀ p ∈ placementsAll [] (fun _ => []) [] 0 roots, p.Sound :=
    sound_of_mem_placements.2 roots [] (fun _ => []) [] 0
      ⟨.nil, fun _ h => absurd h List.not_mem_nil⟩ fun _ => .slnil
  have hmap := map_placements.2 roots [] (fun _ => []) [] 0
  have hocc : ∀ p ∈ placementsAll [] (fun _ => []) [] 0 roots,
      p.toOccurrence ∈ occurrencesAll [] [] 0 roots := fun p hp => by
    rw [← hmap]
    exact List.mem_map_of_mem hp
  have hiff : ∀ p ∈ placementsAll [] (fun _ => []) [] 0 roots,
      p.edits (numbering n (declarationsAll [] 0 roots))
        = p.confined.edits (numbering n (declarationsAll [] 0 roots)) ↔
      ∀ c, p.home? = some c → c ∈ p.inside := fun p hp =>
    (edits_confined_iff (hocc p hp)).trans (meaning?_confined_iff (hsound p hp))
  rw [walked_eq, confined, ← hmap, List.flatMap_map]
  constructor
  · intro h p hp
    refine (hiff p hp).1 (forall_eq_of_flatMap_eq (fun q hq => ?_) h p hp)
    have himp := isSome_meaning?_of_confined (hsound q hq)
    rw [length_edits, length_edits]
    split
    · next hc => rw [if_pos (himp hc)]
    · exact Nat.zero_le _
  · intro h
    exact List.flatMap_congr fun p hp => (hiff p hp).2 (h p hp)

/-- The tree of `class A{#x;m(){class B extends this.#x{#x;}}}`. -/
def heritage : Node Kind :=
  let x (n : Int) : Node Kind := .mk .privateName n (n + 2) ['#', 'x'] [] []
  let field (n : Int) : Node Kind := .mk .member n (n + 2) [] [x n] [(.name, x n)]
  let body : Node Kind := .mk .other 38 43 [] [field 39] []
  let inner : Node Kind := .mk .classDef 15 43 [] [.mk .other 23 38 [] [x 36] [], body]
    [(.body, body)]
  let outerBody : Node Kind := .mk .other 7 45 [] [field 8, .mk .member 11 44 [] [inner] []] []
  .mk .classDef 0 45 [] [outerBody] [(.body, outerBody)]

/-- **A class catches a name in its own heritage.**  `#x` there means the `#x` of `A`, which is
`$a`, and the walk writes the name of `B`'s over it. -/
theorem walked_heritage :
    walked 0 [heritage]
        = [⟨8, 10, ['$', 'a']⟩, ⟨36, 38, ['$', 'b']⟩, ⟨39, 41, ['$', 'b']⟩] ∧
      confined 0 [heritage]
        = [⟨8, 10, ['$', 'a']⟩, ⟨36, 38, ['$', 'a']⟩, ⟨39, 41, ['$', 'b']⟩] := by
  constructor
  · rw [walked_eq]
    simp only [declarationsAll, declarations, occurrencesAll, occurrences, heritage, Tree.kind,
      Tree.children, Node.kind, Node.children, id]
    with_unfolding_all rfl
  · rw [confined]
    simp only [declarationsAll, declarations, placementsAll, placements, insideOf, heritage,
      Tree.kind, Tree.children, Tree.child?, Node.kind, Node.children, Node.child?, Node.fields, id,
      List.lookup_cons_self, Option.some.injEq, Node.mk.injEq, Int.reduceEq, false_and,
      and_false, if_true, if_false]
    with_unfolding_all rfl

end Lexical

end Sigil
