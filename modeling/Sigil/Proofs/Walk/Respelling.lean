import Mathlib.Data.List.Basic
import Mathlib.Data.Set.Function
import Sigil.Proofs.Walk.Lexical

/-!
# Proofs/Walk/Respelling — only the binding structure matters

    walk (the tree, spelled otherwise)  =  walk tree

A walk compares private names and does nothing else with them.  Spell every text of a tree by a
function that keeps private names apart: the tables then hold the new spellings against the old
replacements, in the old order (`freshTable_map`), and every look-up finds what it found before
(`lookup_respell`).
-/

namespace Sigil

/-- A node of a tree all of whose texts are spelled by `ρ`. -/
structure Respelt (τ : Type) (ρ : Text → Text) where
  /-- The node as it was spelled before. -/
  node : τ

namespace Respelt

variable {τ : Type} [Tree τ] {ρ : Text → Text}

/-- Kinds, spans, children and fields are those of the old spelling. -/
instance : Tree (Respelt τ ρ) where
  kind t := Tree.kind t.node
  start t := Tree.start t.node
  stop t := Tree.stop t.node
  text t := ρ (Tree.text t.node)
  children t := (Tree.children t.node).map .mk
  child? t f := (Tree.child? t.node f).map .mk
  finite := by
    refine ⟨fun t => Tree.size t.node, fun t => ?_, fun t f u h => ?_⟩
    · rw [total_map]
      exact Tree.size_children t.node
    · obtain ⟨v, hv, rfl⟩ := Option.map_eq_some_iff.1 h
      exact Tree.size_child? hv

theorem children_mk (t : τ) :
    Tree.children (Respelt.mk t : Respelt τ ρ) = (Tree.children t).map .mk := rfl

theorem child?_mk (t : τ) (f : Field) :
    Tree.child? (Respelt.mk t : Respelt τ ρ) f = (Tree.child? t f).map .mk := rfl

theorem inField_mk (t : τ) (f : Field) :
    Tree.inField (Respelt.mk t : Respelt τ ρ) f = (Tree.inField t f).map .mk := by
  rw [Tree.inField, Tree.inField, child?_mk]
  cases Tree.child? t f <;> rfl

end Respelt

namespace Lexical

variable {τ : Type} [Tree τ]

/-- A text that stands as a private name somewhere in a tree, be it on the left of a brand check. -/
inductive Spelled : τ → Text → Prop
  | name {t : τ} (h : Tree.kind t = .privateName) : Spelled t (Tree.text t)
  | left {t l : τ} (h : Tree.kind t = .brandCheck) (hl : Tree.child? t .left = some l) :
      Spelled t (Tree.text l)
  | child {t c : τ} {x : Text} (hc : c ∈ Tree.children t) (h : Spelled c x) : Spelled t x
  | field {t u : τ} {f : Field} {x : Text} (hu : Tree.child? t f = some u) (h : Spelled u x) :
      Spelled t x

/-- Declared names stand as private names. -/
theorem spelled_of_mem_declared {t : τ} {x : Text} (h : x ∈ declared t) : Spelled t x := by
  obtain ⟨body, hbody, m, hm, -, y, hy, hname, rfl⟩ := mem_declared.1 h
  exact .field hbody (.child hm (.field hy (.name hname)))

/-! ## Lists and tables spelled otherwise -/

variable {S : Set Text} {ρ : Text → Text}

/-- Spelling otherwise leaves the same repeats to be dropped. -/
theorem eraseDups_map (hρ : S.InjOn ρ) :
    ∀ xs : List Text, (∀ x ∈ xs, x ∈ S) → (xs.map ρ).eraseDups = xs.eraseDups.map ρ
  | [], _ => rfl
  | x :: xs, hS => by
    obtain ⟨hx, hxs⟩ := List.forall_mem_cons.1 hS
    have hfilter : (xs.map ρ).filter (fun y => !y == ρ x)
        = (xs.filter fun y => !y == x).map ρ := by
      rw [List.filter_map]
      refine congrArg (List.map ρ) (List.filter_congr fun y hy => ?_)
      have hsame : ρ y = ρ x ↔ y = x := hρ.eq_iff (hxs y hy) hx
      simp [hsame]
    rw [List.map_cons, List.eraseDups_cons, List.eraseDups_cons, hfilter, List.map_cons,
      eraseDups_map hρ _ fun y hy => hxs y (List.mem_filter.1 hy).1]
termination_by xs => xs.length
decreasing_by exact Nat.lt_succ_of_le (List.length_filter_le _ xs)

/-- A table with its names spelled otherwise. -/
def respell (ρ : Text → Text) (table : ScopeTable) : ScopeTable :=
  table.map fun p => (ρ p.1, p.2)

@[simp] theorem length_respell (ρ : Text → Text) (table : ScopeTable) :
    (respell ρ table).length = table.length := List.length_map _

@[simp] theorem isEmpty_respell (ρ : Text → Text) (table : ScopeTable) :
    (respell ρ table).isEmpty = table.isEmpty := List.isEmpty_map

/-- All names in some tables are from a set. -/
def Within (S : Set Text) (env : List ScopeTable) : Prop :=
  ∀ table ∈ env, ∀ p ∈ table, p.1 ∈ S

theorem freshTable_map (hρ : S.InjOn ρ) (n : Nat) {names : List Text}
    (hS : ∀ x ∈ names, x ∈ S) :
    freshTable n (names.map ρ) = respell ρ (freshTable n names) := by
  rw [freshTable, freshTable, respell, eraseDups_map hρ names hS, List.zipIdx_map, List.map_map,
    List.map_map]
  rfl

theorem within_cons {n : Nat} {names : List Text} {env : List ScopeTable}
    (hS : ∀ x ∈ names, x ∈ S) (henv : Within S env) : Within S (freshTable n names :: env) := by
  refine List.forall_mem_cons.2 ⟨fun p hp => ?_, henv⟩
  obtain ⟨q, hq, rfl⟩ := List.mem_map.1 hp
  exact hS q.1 (List.mem_eraseDups.1 (List.fst_mem_of_mem_zipIdx hq))

/-- **A look-up finds what it found before.** -/
theorem lookup_respell (hρ : S.InjOn ρ) {table : ScopeTable} (hS : ∀ p ∈ table, p.1 ∈ S)
    {x : Text} (hx : x ∈ S) : (respell ρ table).lookup (ρ x) = table.lookup x := by
  induction table with
  | nil => rfl
  | cons p table ih =>
    obtain ⟨hp, htable⟩ := List.forall_mem_cons.1 hS
    have hsame : (ρ x == ρ p.1) = (x == p.1) := by
      rw [Bool.eq_iff_iff, beq_iff_eq, beq_iff_eq]
      exact hρ.eq_iff hx hp
    have ih := ih htable
    rw [respell] at ih ⊢
    rw [List.map_cons, List.lookup_cons, List.lookup_cons, hsame, ih]

theorem findSome?_respell (hρ : S.InjOn ρ) {env : List ScopeTable} (henv : Within S env) {x : Text}
    (hx : x ∈ S) : ((env.map (respell ρ)).findSome? fun table => table.lookup (ρ x))
      = env.findSome? fun table => table.lookup x := by
  induction env with
  | nil => rfl
  | cons table env ih =>
    obtain ⟨htable, henv⟩ := List.forall_mem_cons.1 henv
    rw [List.map_cons, List.findSome?_cons, List.findSome?_cons, lookup_respell hρ htable hx,
      ih henv]

/-! ## The recursion -/

theorem editOf_respelt (hρ : S.InjOn ρ) {env : List ScopeTable} (henv : Within S env)
    (quoted : Bool) {t : τ} (ht : Tree.text t ∈ S) :
    editOf (env.map (respell ρ)) quoted (Respelt.mk t : Respelt τ ρ) = editOf env quoted t := by
  rw [editOf, editOf, ← findSome?_respell hρ henv ht]
  rfl

/-- A class declares the names it declared, in their new spelling. -/
theorem declared_respelt (t : τ) :
    declared (Respelt.mk t : Respelt τ ρ) = (declared t).map ρ := by
  rw [declared, declared, Respelt.child?_mk]
  cases Tree.child? t .body with
  | none => rfl
  | some body =>
    have hnames : ((fun m : Respelt τ ρ => Tree.child? m .name) ∘ Respelt.mk)
        = fun m : τ => (Tree.child? m .name).map (Respelt.mk (ρ := ρ)) := rfl
    simp only [Option.map_some, Respelt.children_mk, List.filter_map, List.filterMap_map, hnames,
      ← List.map_filterMap, List.map_map]
    rfl

/-- **Spelling otherwise changes nothing** in what a part of a tree yields. -/
theorem visit_respelt (hρ : S.InjOn ρ) :
    (∀ (t : τ) (env : List ScopeTable) (n : Nat), (∀ x, Spelled t x → x ∈ S) → Within S env →
      visit (env.map (respell ρ)) n (Respelt.mk t : Respelt τ ρ) = visit env n t) ∧
    ∀ (ts : List τ) (env : List ScopeTable) (n : Nat), (∀ t ∈ ts, ∀ x, Spelled t x → x ∈ S) →
      Within S env → visitAll (env.map (respell ρ)) n (ts.map (Respelt.mk (ρ := ρ)))
        = visitAll env n ts := by
  refine Tree.induct (fun t hchildren hfields => ?_) ?_ (fun t ts ht hts => ?_)
  · intro env n hS henv
    have hbelow : ∀ c ∈ Tree.children t, ∀ x, Spelled c x → x ∈ S :=
      fun c hc x hx => hS x (.child hc hx)
    rw [visit, visit]
    cases hk : Tree.kind t with
    | classDef =>
      have hdeclared : ∀ x ∈ declared t, x ∈ S := fun x hx => hS x (spelled_of_mem_declared hx)
      have hbody := hchildren _ (n + (freshTable n (declared t)).length) hbelow
        (within_cons (n := n) hdeclared henv)
      rw [List.map_cons] at hbody
      simp only [declared_respelt, freshTable_map hρ n hdeclared, length_respell,
        isEmpty_respell, Respelt.children_mk, hbody]
    | brandCheck =>
      have hright := hfields .right env n
        (fun u hu x hx => hS x (.field (Tree.mem_inField.1 hu) hx)) henv
      have hleft : ((Tree.inField t .left).map (Respelt.mk (ρ := ρ))).flatMap
          (editOf (env.map (respell ρ)) true)
          = (Tree.inField t .left).flatMap (editOf env true) := by
        rw [List.flatMap_map]
        exact List.flatMap_congr fun l hl => editOf_respelt hρ henv true
          (hS _ (.left hk (Tree.mem_inField.1 hl)))
      simp only [Respelt.inField_mk, hright, hleft]
    | privateName =>
      rw [editOf_respelt hρ henv false (hS _ (.name hk))]
    | member | other => exact hchildren env n hbelow henv
  · intro env n _ _
    rw [List.map_nil, visitAll, visitAll]
  · intro env n hS henv
    obtain ⟨hhead, htail⟩ := List.forall_mem_cons.1 hS
    rw [List.map_cons, visitAll, visitAll, ht env n hhead henv, hts env _ htail henv]

/-- **Only the binding structure matters.**  Spell all texts of a tree by a function that keeps its
private names apart: a fresh walk ends in the same walker, with the same edits, the same number of
classes that declare a name and the same number of names handed out. -/
theorem walk_respelt {root : τ} (hρ : Set.InjOn ρ {x | Spelled root x}) :
    ({} : Walker).walk (Respelt.mk root : Respelt τ ρ) = ({} : Walker).walk root := by
  have h := (visit_respelt hρ).1 root [] 0 (fun _ hx => hx) fun _ htable =>
    absurd htable List.not_mem_nil
  rw [Walk.walk_eq, Walk.walk_eq]
  exact congrArg (Walker.after {}) h

/-- The names of `class A{#x}#x in class{}` written backwards, so that none starts with the sign. -/
theorem walk_respelt_backwards :
    Set.InjOn List.reverse {x | Spelled Walk.siblings x} ∧
      ({} : Walker).walk (Respelt.mk Walk.siblings : Respelt (Node Kind) List.reverse)
        = { scopes := { count := 1 }, edits := [⟨8, 10, "$a".toList⟩], classCount := 1 } := by
  have hρ : Set.InjOn List.reverse {x | Spelled Walk.siblings x} := List.reverse_injective.injOn
  refine ⟨hρ, ?_⟩
  rw [walk_respelt hρ, Walk.walk_eq]
  simp only [Walk.siblings, visit, visitAll, Walk.inField_right, Tree.kind, Tree.children,
    Node.kind, Node.children, id]
  with_unfolding_all rfl

end Lexical

end Sigil
