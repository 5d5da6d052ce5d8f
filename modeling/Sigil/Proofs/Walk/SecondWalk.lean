import Sigil.Proofs.Walk.Binding

/-!
# Proofs/Walk/SecondWalk — a renamed tree is left alone

    walk (the tree after a walk)  =  nothing

A walk leaves private names behind that no class declares, so a second one has names to look up.
What it has not is a class that still declares one: where the parts of a class are nodes that the
walk comes to, a declared name is itself an occurrence, and it means at least the class that
declares it (`Renamed.declared_eq_nil`).  And where no class declares a name, a walk yields nothing
(`visit_of_undeclared`).
-/

namespace Sigil

namespace Tree

variable {τ : Type} [Tree τ]

/-- A node in whose fields stand nodes that a walk comes to. -/
@[mk_iff]
structure Shape (t : τ) : Prop where
  body : kind t = .classDef → ∀ b, child? t .body = some b → b ∈ children t ∧ kind b = .other
  name : kind t = .member → ∀ x, child? t .name = some x → x ∈ children t
  leaf : kind t = .privateName → children t = []
  left : kind t = .brandCheck → ∃ l, child? t .left = some l ∧ kind l = .privateName
  right : kind t = .brandCheck → ∀ r, child? t .right = some r → r ∈ children t
  sides : kind t = .brandCheck → ∀ c ∈ children t, c ∈ inField t .left ++ inField t .right

/-- A tree every node of which is shaped so. -/
inductive Shaped : τ → Prop where
  | node {t : τ} (shape : Shape t) (below : ∀ c ∈ children t, Shaped c) : Shaped t

theorem Shaped.shape {t : τ} (h : Shaped t) : Shape t := by
  cases h with
  | node shape _ => exact shape

theorem Shaped.of_mem_children {t : τ} (h : Shaped t) : ∀ c ∈ children t, Shaped c := by
  cases h with
  | node _ below => exact below

theorem shaped_mk {k : Kind} {s e : Int} {x : Text} {cs : List (Node Kind)}
    {fs : List (Field × Node Kind)} : Shaped (Node.mk k s e x cs fs) ↔
      Shape (Node.mk k s e x cs fs) ∧ ∀ c ∈ cs, Shaped c :=
  ⟨fun h => ⟨h.shape, h.of_mem_children⟩, fun h => .node h.1 h.2⟩

end Tree

/-! ## Trees that declare nothing -/

namespace Lexical

section

variable {τ : Type} [Tree τ]

/-- Nodes among which no class declares a name and which a walk cannot leave. -/
structure Undeclared (P : τ → Prop) : Prop where
  /-- Children stay among them. -/
  children_mem : ∀ {t}, P t → ∀ c ∈ Tree.children t, P c
  /-- So does the right side of a brand check. -/
  right_mem : ∀ {t}, P t → Tree.kind t = .brandCheck → ∀ r ∈ Tree.inField t .right, P r
  /-- Classes declare nothing. -/
  declared_eq_nil : ∀ {t}, P t → Tree.kind t = .classDef → declared t = []

theorem editOf_of_forall_nil {env : List ScopeTable} (henv : ∀ table ∈ env, table = [])
    (quoted : Bool) (t : τ) : editOf env quoted t = [] := by
  have hnone : (env.findSome? fun table => table.lookup (Tree.text t)) = none := by
    rw [List.findSome?_eq_none_iff]
    intro table htable
    rw [henv table htable, List.lookup_nil]
  rw [editOf, hnone]

/-- **Where no class declares a name a walk yields nothing**: no edit, no short name, no class. -/
theorem visit_of_undeclared {P : τ → Prop} (hP : Undeclared P) :
    (∀ (t : τ) (env : List ScopeTable) (n : Nat), P t → (∀ table ∈ env, table = []) →
      visit env n t = ⟨[], n, 0⟩) ∧
    ∀ (ts : List τ) (env : List ScopeTable) (n : Nat), (∀ t ∈ ts, P t) →
      (∀ table ∈ env, table = []) → visitAll env n ts = ⟨[], n, 0⟩ := by
  refine Tree.induct (fun t hchildren hfields => ?_) ?_ (fun t ts ht hts => ?_)
  · intro env n h henv
    rw [visit]
    cases hk : Tree.kind t with
    | classDef =>
      have htable : freshTable n (declared t) = [] := by
        rw [hP.declared_eq_nil h hk]
        rfl
      have hbelow := hchildren ([] :: env) n (hP.children_mem h)
        (List.forall_mem_cons.2 ⟨rfl, henv⟩)
      simp only [htable, List.length_nil, Nat.add_zero, hbelow]
      rfl
    | brandCheck =>
      have hleft : (Tree.inField t .left).flatMap (editOf env true) = [] :=
        List.flatMap_eq_nil_iff.2 fun l _ => editOf_of_forall_nil henv true l
      simp only [hfields .right env n (hP.right_mem h hk) henv, hleft, List.append_nil]
    | privateName => rw [editOf_of_forall_nil henv]
    | member | other => exact hchildren env n (hP.children_mem h) henv
  · intro env n _ _
    rw [visitAll]
  · intro env n h henv
    obtain ⟨hhead, htail⟩ := List.forall_mem_cons.1 h
    rw [visitAll, ht env n hhead henv, hts env n htail henv]
    rfl

end

end Lexical

/-! ## The tree after a walk -/

/-- A node of `root` as it is after a walk of `root`, with the classes around it, innermost
first. -/
structure Renamed {τ : Type} (root : τ) where
  /-- The node as it was before. -/
  node : τ
  /-- The classes around it. -/
  around : List τ

namespace Renamed

variable {τ : Type} [Tree τ] {root : τ}

/-- The walk of `root` writes over a node. -/
def Replaced (p : Renamed root) : Prop :=
  ∃ o ∈ Lexical.bound [root], o.node = p.node ∧ o.around.map (·.2) = p.around

/-- A node that is no private name and no brand check any more: a private name that is replaced, or
a brand check whose left side is. -/
def Turned (p : Renamed root) : Prop :=
  Tree.kind p.node = .privateName ∧ p.Replaced ∨
    Tree.kind p.node = .brandCheck ∧
      ∃ l, Tree.child? p.node .left = some l ∧ Replaced (⟨l, p.around⟩ : Renamed root)

/-- A node below another. -/
def below (p : Renamed root) (u : τ) : Renamed root :=
  ⟨u, if Tree.kind p.node = .classDef then p.node :: p.around else p.around⟩

open scoped Classical in
/-- Turned nodes are other nodes now; all else is as it was. -/
noncomputable instance : Tree (Renamed root) where
  kind p := if p.Turned then .other else Tree.kind p.node
  start p := Tree.start p.node
  stop p := Tree.stop p.node
  text p := Tree.text p.node
  children p := (Tree.children p.node).map p.below
  child? p f := (Tree.child? p.node f).map p.below
  finite := by
    refine ⟨fun p => Tree.size p.node, fun p => ?_, fun p f u h => ?_⟩
    · rw [total_map]
      exact Tree.size_children p.node
    · obtain ⟨v, hv, rfl⟩ := Option.map_eq_some_iff.1 h
      exact Tree.size_child? hv

open scoped Classical in
theorem kind_eq (p : Renamed root) :
    Tree.kind p = if p.Turned then .other else Tree.kind p.node := rfl

/-- Nodes that are no other nodes are what they were. -/
theorem kind_node {p : Renamed root} {k : Kind} (h : Tree.kind p = k) (hk : k ≠ .other) :
    Tree.kind p.node = k ∧ ¬p.Turned := by
  rw [kind_eq] at h
  split at h
  · exact absurd h.symm hk
  · next hturned => exact ⟨h, hturned⟩

/-- The walk of `root` comes to a node, and so to all the private names that it comes to in it. -/
def Reached (p : Renamed root) : Prop :=
  ∃ (around : List (Address × τ)) (a : Address), around.map (·.2) = p.around ∧
    ∀ o ∈ Lexical.occurrences around a p.node, o ∈ Lexical.occurrencesAll [] [] 0 [root]

theorem reached_root : Reached (⟨root, []⟩ : Renamed root) := by
  refine ⟨[], [0], rfl, fun o ho => ?_⟩
  rw [Lexical.occurrencesAll]
  exact List.mem_append_left _ ho

/-- What a walk comes to in one of some nodes it comes to in all of them. -/
theorem exists_mem_occurrencesAll {c : τ} {ts : List τ} (hc : c ∈ ts)
    (around : List (Address × τ)) (a : Address) (i : Nat) :
    ∃ b, ∀ o ∈ Lexical.occurrences around b c, o ∈ Lexical.occurrencesAll around a i ts := by
  induction ts generalizing i with
  | nil => exact absurd hc List.not_mem_nil
  | cons t ts ih =>
    rw [Lexical.occurrencesAll]
    rcases List.mem_cons.1 hc with rfl | hc
    · exact ⟨i :: a, fun o ho => List.mem_append_left _ ho⟩
    · obtain ⟨b, hb⟩ := ih hc (i + 1)
      exact ⟨b, fun o ho => List.mem_append_right _ (hb o ho)⟩

/-- The walk goes into everything but private names and brand checks. -/
theorem Reached.below {p : Renamed root} (h : p.Reached) (hname : Tree.kind p.node ≠ .privateName)
    (hcheck : Tree.kind p.node ≠ .brandCheck) {c : τ} (hc : c ∈ Tree.children p.node) :
    (p.below c).Reached := by
  obtain ⟨around, a, haround, hocc⟩ := h
  rw [Lexical.occurrences] at hocc
  cases hk : Tree.kind p.node with
  | classDef =>
    simp only [hk] at hocc
    obtain ⟨b, hb⟩ := exists_mem_occurrencesAll hc ((a, p.node) :: around) a 0
    refine ⟨(a, p.node) :: around, b, ?_, fun o ho => hocc o (hb o ho)⟩
    rw [Renamed.below, hk, if_pos rfl, List.map_cons, haround]
  | privateName => exact absurd hk hname
  | brandCheck => exact absurd hk hcheck
  | member | other =>
    simp only [hk] at hocc
    obtain ⟨b, hb⟩ := exists_mem_occurrencesAll hc around a 0
    refine ⟨around, b, ?_, fun o ho => hocc o (hb o ho)⟩
    rw [Renamed.below, hk, if_neg (by decide), haround]

/-- It goes into the right side of a brand check. -/
theorem Reached.right {p : Renamed root} (h : p.Reached) (hk : Tree.kind p.node = .brandCheck)
    {r : τ} (hr : r ∈ Tree.inField p.node .right) : (p.below r).Reached := by
  obtain ⟨around, a, haround, hocc⟩ := h
  rw [Lexical.occurrences] at hocc
  simp only [hk] at hocc
  obtain ⟨b, hb⟩ := exists_mem_occurrencesAll hr around a 0
  refine ⟨around, b, ?_, fun o ho => hocc o (List.mem_append_right _ (hb o ho))⟩
  rw [Renamed.below, hk, if_neg (by decide), haround]

/-- **A private name that a class around it declares is replaced.** -/
theorem Reached.replaced {p : Renamed root} (h : p.Reached) (hk : Tree.kind p.node = .privateName)
    {c : τ} (hc : c ∈ p.around) (hdeclared : Tree.text p.node ∈ Lexical.declared c) :
    p.Replaced := by
  obtain ⟨around, a, haround, hocc⟩ := h
  rw [Lexical.occurrences, hk] at hocc
  rw [← haround] at hc
  obtain ⟨d, hd, rfl⟩ := List.mem_map.1 hc
  refine ⟨_, List.mem_filter.2 ⟨hocc _ (List.mem_singleton_self _), ?_⟩, rfl, haround⟩
  rw [Occurrence.meaning?, Option.isSome_map, Occurrence.home?, List.find?_isSome]
  exact ⟨d, hd, by simpa using hdeclared⟩

/-- The classes around a node are around what is below it. -/
theorem around_below (p : Renamed root) (u : τ) {c : τ} (hc : c ∈ p.around) :
    c ∈ (p.below u).around := by
  rw [below]
  split
  · exact List.mem_cons_of_mem _ hc
  · exact hc

theorem mem_around_below {p : Renamed root} (hk : Tree.kind p.node = .classDef) (u : τ) :
    p.node ∈ (p.below u).around := by
  rw [below, if_pos hk]
  exact List.mem_cons_self

/-- **No class of the renamed tree declares a name**: each name that it declared is replaced. -/
theorem declared_eq_nil {p : Renamed root} (hk : Tree.kind p = .classDef) (h : p.Reached)
    (hshaped : Tree.Shaped p.node) : Lexical.declared p = [] := by
  obtain ⟨hclass, -⟩ := kind_node hk (by decide)
  refine List.eq_nil_iff_forall_not_mem.2 fun x hx => ?_
  obtain ⟨_, hbody, _, hm, hmember, _, hname, hprivate, -⟩ := Lexical.mem_declared.1 hx
  obtain ⟨b, hb, rfl⟩ := Option.map_eq_some_iff.1 hbody
  obtain ⟨m, hmb, rfl⟩ := List.mem_map.1 hm
  obtain ⟨y, hy, rfl⟩ := Option.map_eq_some_iff.1 hname
  have hmember : Tree.kind m = .member := (kind_node hmember (by decide)).1
  obtain ⟨hprivate, hkept⟩ := kind_node hprivate (by decide)
  -- the walk comes to the body, to the member in it and to the name of the member
  obtain ⟨hbmem, hother⟩ := hshaped.shape.body hclass b hb
  have hshape := ((hshaped.of_mem_children b hbmem).of_mem_children m hmb).shape
  have hbody : (p.below b).Reached :=
    h.below (by rw [hclass]; decide) (by rw [hclass]; decide) hbmem
  have hmem : ((p.below b).below m).Reached :=
    hbody.below (fun e => by cases hother.symm.trans e) (fun e => by cases hother.symm.trans e) hmb
  have hkey : (((p.below b).below m).below y).Reached :=
    hmem.below (fun e => by cases hmember.symm.trans e) (fun e => by cases hmember.symm.trans e)
      (hshape.name hmember y hy)
  have haround : p.node ∈ (((p.below b).below m).below y).around :=
    around_below _ y (around_below _ m (mem_around_below hclass b))
  exact hkept (.inl ⟨hprivate, hkey.replaced hprivate haround
    (Lexical.mem_declared.2 ⟨b, hb, m, hmb, hmember, y, hy, hprivate, rfl⟩)⟩)

/-- The nodes that a second walk can come to. -/
inductive Revisited (p : Renamed root) : Prop
  /-- Nodes that the first walk came to. -/
  | reached (h : p.Reached) (hshaped : Tree.Shaped p.node)
  /-- Private names. -/
  | name (hk : Tree.kind p.node = .privateName) (hleaf : Tree.children p.node = [])

/-- Below such a node are such nodes. -/
theorem Revisited.below {p : Renamed root} (h : p.Revisited) {c : τ}
    (hc : c ∈ Tree.children p.node) : (p.below c).Revisited := by
  cases h with
  | name _ hleaf =>
    rw [hleaf] at hc
    exact absurd hc List.not_mem_nil
  | reached h hshaped =>
    have hbelow := hshaped.of_mem_children c hc
    by_cases hname : Tree.kind p.node = .privateName
    · rw [hshaped.shape.leaf hname] at hc
      exact absurd hc List.not_mem_nil
    · by_cases hcheck : Tree.kind p.node = .brandCheck
      · rcases List.mem_append.1 (hshaped.shape.sides hcheck c hc) with hl | hr
        · obtain ⟨l, hleft, hkl⟩ := hshaped.shape.left hcheck
          obtain rfl : l = c := Option.some.inj (hleft.symm.trans (Tree.mem_inField.1 hl))
          exact .name hkl (hbelow.shape.leaf hkl)
        · exact .reached (h.right hcheck hr) hbelow
      · exact .reached (h.below hname hcheck hc) hbelow

/-- **A second walk finds no class that declares a name.** -/
theorem undeclared_revisited : Lexical.Undeclared (Revisited : Renamed root → Prop) where
  children_mem h c hc := by
    obtain ⟨u, hu, rfl⟩ := List.mem_map.1 hc
    exact h.below hu
  right_mem {p} h hk r hr := by
    have hcheck := (kind_node hk (by decide)).1
    obtain ⟨v, hv, rfl⟩ := Option.map_eq_some_iff.1 (Tree.mem_inField.1 hr)
    cases h with
    | name hname _ => cases hcheck.symm.trans hname
    | reached h hshaped =>
      exact (Revisited.reached h hshaped).below (hshaped.shape.right hcheck v hv)
  declared_eq_nil {p} h hk := by
    cases h with
    | name hname _ => cases (kind_node hk (by decide)).1.symm.trans hname
    | reached h hshaped => exact declared_eq_nil hk h hshaped

/-- **A renamed tree is left alone.**  The edits of a walk write names over the occurrences that
mean something, one each.  Turn the private names among them into other nodes, and likewise the
brand checks whose left sides are among them: a fresh walk of the tree ends as it began, with no
edit, no class that declares a name and no name handed out. -/
theorem walk_renamed (h : Tree.Shaped root) :
    List.Forall₂ (fun e o => ∃ name, e = Occurrence.edit o name)
        (({} : Walker).walk root).edits (Lexical.bound [root]) ∧
      ({} : Walker).walk (⟨root, []⟩ : Renamed root) = {} := by
  refine ⟨?_, ?_⟩
  · have hwalked : (({} : Walker).walk root).edits = Lexical.walked 0 [root] := rfl
    rw [hwalked, Lexical.walked_eq]
    refine (Lexical.forall₂_edits _ _).imp fun e o => ?_
    rintro ⟨k, -, rfl⟩
    exact ⟨_, rfl⟩
  · have hnone := (Lexical.visit_of_undeclared undeclared_revisited).1 ⟨root, []⟩ [] 0
      (.reached reached_root h) fun _ htable => absurd htable List.not_mem_nil
    rw [Walk.walk_eq]
    exact congrArg (Walker.after {}) hnone

/-- The tree of `class{#x=#y in class{#x=#x in o}}`: no class declares `#y`. -/
def shadowed : Node Kind :=
  let x (n : Int) : Node Kind := .mk .privateName n (n + 2) ['#', 'x'] [] []
  let y : Node Kind := .mk .privateName 9 11 ['#', 'y'] [] []
  let o : Node Kind := .mk .other 30 31 ['o'] [] []
  let check : Node Kind := .mk .brandCheck 24 31 [] [x 24, o] [(.left, x 24), (.right, o)]
  let inner : Node Kind := .mk .other 20 32 []
    [.mk .member 21 31 [] [x 21, check] [(.name, x 21)]] []
  let right : Node Kind := .mk .classDef 15 32 [] [inner] [(.body, inner)]
  let left : Node Kind := .mk .brandCheck 9 32 [] [y, right] [(.left, y), (.right, right)]
  let outer : Node Kind := .mk .other 5 33 [] [.mk .member 6 32 [] [x 6, left] [(.name, x 6)]] []
  .mk .classDef 0 33 [] [outer] [(.body, outer)]

theorem walk_renamed_shadowed :
    Tree.Shaped shadowed ∧
      (({} : Walker).walk shadowed).edits
        = [⟨6, 8, "$a".toList⟩, ⟨21, 23, "$b".toList⟩, ⟨24, 26, "'$b'".toList⟩] ∧
      ({} : Walker).walk (⟨shadowed, []⟩ : Renamed shadowed) = {} := by
  have hright : (Field.right == Field.left) = false := rfl
  have h : Tree.Shaped shadowed := by
    simp [shadowed, Tree.shaped_mk, Tree.shape_iff, Tree.children, Tree.kind, Tree.child?,
      Tree.inField, Node.children, Node.kind, Node.child?, Node.fields, List.lookup_cons, hright]
  refine ⟨h, ?_, (walk_renamed h).2⟩
  rw [Walk.walk_eq]
  simp only [shadowed, Lexical.visit, Lexical.visitAll, Walk.inField_right, Tree.kind,
    Tree.children, Node.kind, Node.children, id]
  with_unfolding_all rfl

end Renamed

end Sigil
