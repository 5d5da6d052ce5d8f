import Mathlib.Logic.Function.Iterate
import Sigil.Walk

/-!
# Proofs/Walk/Lexical — the walk is lexical scoping

    run (visit t :: rest) w  =  run rest (w.after (Lexical.visit tables count t))

`Lexical.visit` renames by plain recursion: it passes the tables of the open classes down and a
counter along.  The walk keeps a stack of things to do instead, in which the end of a class stands
among nodes; `run_visit` takes the top of that stack off, whatever lies below it.
-/

namespace Sigil

namespace Tree

variable {τ : Type} [Tree τ]

theorem size_le_total {t : τ} {ts : List τ} (h : t ∈ ts) : size t ≤ total size ts := by
  induction ts with
  | nil => simp at h
  | cons u ts ih =>
    rw [total_cons]
    rcases List.mem_cons.1 h with rfl | h
    · exact Nat.le_add_right _ _
    · exact Nat.le_trans (ih h) (Nat.le_add_left _ _)

/-- The nodes in a field: one or none. -/
def inField (t : τ) (f : Field) : List τ := (child? t f).toList

theorem mem_inField {t u : τ} {f : Field} : u ∈ inField t f ↔ child? t f = some u := by
  rw [inField, Option.mem_toList]

theorem size_inField (t : τ) (f : Field) : total size (inField t f) < size t := by
  rw [inField]
  cases h : child? t f with
  | none => exact Nat.lt_of_le_of_lt (Nat.zero_le _) (size_children t)
  | some u => exact size_child? h

/-- A recursion over nodes side by side may go into the first of them. -/
theorem lt_head (t : τ) (ts : List τ) :
    Prod.Lex (· < ·) (· < ·) (size t, 0) (total size (t :: ts), 1) := by
  rw [total_cons]
  rcases Nat.eq_zero_or_pos (total size ts) with h | h
  · rw [h, Nat.add_zero]
    exact .right _ Nat.zero_lt_one
  · exact .left _ _ (Nat.lt_add_of_pos_right h)

/-- It may go on with the others. -/
theorem lt_tail (t : τ) (ts : List τ) :
    Prod.Lex (· < ·) (· < ·) (total size ts, 1) (total size (t :: ts), 1) := by
  have := size_children t
  rw [total_cons]
  exact .left _ _ (by omega)

/-- **Induction on trees** together with the lists of nodes below them: a node's children, and what
is in each of its fields. -/
theorem induct {P : τ → Prop} {Q : List τ → Prop}
    (node : ∀ t, Q (children t) → (∀ f, Q (inField t f)) → P t) (nil : Q [])
    (cons : ∀ t ts, P t → Q ts → Q (t :: ts)) : (∀ t, P t) ∧ ∀ ts, Q ts := by
  have hlist : ∀ ts : List τ, (∀ t ∈ ts, P t) → Q ts := by
    intro ts h
    induction ts with
    | nil => exact nil
    | cons t ts ih =>
      obtain ⟨ht, hts⟩ := List.forall_mem_cons.1 h
      exact cons t ts ht (ih hts)
  have hnode : ∀ t, P t := by
    intro t
    induction hn : size t using Nat.strongRecOn generalizing t with
    | ind n ih =>
      subst hn
      refine node t (hlist _ fun c hc => ih (size c) ?_ c rfl) fun f => hlist _ fun u hu =>
        ih (size u) (size_child? (mem_inField.1 hu)) u rfl
      exact Nat.lt_of_le_of_lt (size_le_total hc) (size_children t)
  exact ⟨hnode, fun ts => hlist ts fun t _ => hnode t⟩

end Tree

/-! ## The recursion -/

/-- What a part of a tree yields. -/
structure Found where
  /-- The edits, in document order. -/
  edits : List Edit
  /-- How many short names have been handed out afterwards. -/
  count : Nat
  /-- How many classes in it declare a private name. -/
  classes : Nat
deriving DecidableEq, Repr

namespace Lexical

variable {τ : Type} [Tree τ]

/-- The private names that stand in the name fields of the members of a class's body. -/
def declared (c : τ) : List Text :=
  match Tree.child? c .body with
  | none => []
  | some body =>
    let members := (Tree.children body).filter fun m => Tree.kind m = .member
    let names := members.filterMap fun m => Tree.child? m .name
    (names.filter fun x => Tree.kind x = .privateName).map Tree.text

/-- A table for distinct names, numbered from `n` in the order in which they first occur. -/
def freshTable (n : Nat) (names : List Text) : ScopeTable :=
  (names.eraseDups.zipIdx n).map fun x => (x.1, ShortName.name x.2)

/-- The edit of an occurrence: none if no table has its text, else by the innermost that has it. -/
def editOf (env : List ScopeTable) (quoted : Bool) (t : τ) : List Edit :=
  match env.findSome? fun table => table.lookup (Tree.text t) with
  | none => []
  | some r =>
    [⟨Tree.start t, Tree.stop t, if quoted then '\x27' :: (r ++ ['\x27']) else r⟩]

mutual

/-- **Renaming a node** under the tables of the classes around it, innermost first. -/
def visit (env : List ScopeTable) (n : Nat) (t : τ) : Found :=
  match Tree.kind t with
  | .classDef =>
    let table := freshTable n (declared t)
    let below := visitAll (table :: env) (n + table.length) (Tree.children t)
    { below with classes := (if table.isEmpty then 0 else 1) + below.classes }
  | .brandCheck =>
    let right := visitAll env n (Tree.inField t .right)
    { right with edits := (Tree.inField t .left).flatMap (editOf env true) ++ right.edits }
  | .privateName => ⟨editOf env false t, n, 0⟩
  | .member | .other => visitAll env n (Tree.children t)
termination_by (Tree.size t, 0)
decreasing_by
  · exact .left _ _ (Tree.size_children t)
  · exact .left _ _ (Tree.size_inField t .right)
  · exact .left _ _ (Tree.size_children t)

/-- Renaming nodes one after another. -/
def visitAll (env : List ScopeTable) (n : Nat) : List τ → Found
  | [] => ⟨[], n, 0⟩
  | t :: ts =>
    let first := visit env n t
    let rest := visitAll env first.count ts
    ⟨first.edits ++ rest.edits, rest.count, first.classes + rest.classes⟩
termination_by ts => (total Tree.size ts, 1)
decreasing_by
  · exact Tree.lt_head t ts
  · exact Tree.lt_tail t ts

end

/-! ## The tables -/

theorem length_freshTable (n : Nat) (names : List Text) :
    (freshTable n names).length = names.eraseDups.length := by
  rw [freshTable, List.length_map, List.length_zipIdx]

theorem lookup_append_isNone (table : ScopeTable) (x y : Text) (r : Text) :
    ((table ++ [(x, r)]).lookup y).isNone = ((table.lookup y).isNone && !y == x) := by
  rw [List.lookup_append, List.lookup_singleton]
  cases table.lookup y <;> cases y == x <;> rfl

/-- Declaring names extends a table by a fresh one for the names it lacks. -/
theorem declare_eq (n : Nat) (table : ScopeTable) (names : List Text) :
    Scopes.declare n table names
      = (n + (names.filter fun x => (table.lookup x).isNone).eraseDups.length,
        table ++ freshTable n (names.filter fun x => (table.lookup x).isNone)) := by
  induction names generalizing n table with
  | nil => simp [Scopes.declare, freshTable]
  | cons x names ih =>
    rw [Scopes.declare, List.filter_cons]
    cases h : table.lookup x with
    | some r => simpa using ih n table
    | none =>
      have hfilter : (names.filter fun y => ((table ++ [(x, ShortName.name n)]).lookup y).isNone)
          = (names.filter fun y => (table.lookup y).isNone).filter fun y => !y == x := by
        rw [List.filter_filter]
        refine congrArg (fun p => names.filter p) (funext fun y => ?_)
        rw [lookup_append_isNone, Bool.and_comm]
      rw [if_neg (by simp), if_pos Option.isNone_none, ih, hfilter, freshTable, freshTable,
        List.eraseDups_cons, List.length_cons, List.zipIdx_cons, List.map_cons, List.append_assoc]
      exact Prod.ext (by simp only; omega) rfl

/-- **Opening a class** puts a fresh table on top and counts its names. -/
theorem enter_eq (s : Scopes) (names : List Text) :
    s.enter names = (freshTable s.count names,
      ⟨s.count + (freshTable s.count names).length, freshTable s.count names :: s.tables⟩) := by
  have hall : (names.filter fun x => (([] : ScopeTable).lookup x).isNone) = names :=
    List.filter_eq_self.2 fun _ _ => rfl
  rw [Scopes.enter, declare_eq, hall, length_freshTable]
  rfl

/-- The walk collects the declared names of a class. -/
theorem declaredNames_eq (c : τ) : Walk.declaredNames c = declared c := by
  rw [Walk.declaredNames, declared]
  cases Tree.child? c .body with
  | none => rfl
  | some body =>
    simp only
    induction Tree.children body with
    | nil => rfl
    | cons m ms ih =>
      rw [List.filterMap_cons, ih, List.filter_cons, Walk.memberName?]
      cases hk : Tree.kind m with
      | member =>
        simp only [decide_true, if_true, List.filterMap_cons]
        cases Tree.child? m .name with
        | none => rfl
        | some x =>
          simp only [List.filter_cons]
          by_cases hx : Tree.kind x = .privateName <;> simp [hx]
      | classDef | privateName | brandCheck | other => rfl

/-- **What a class declares**: the texts of the private names in the name fields of its members. -/
theorem mem_declared {c : τ} {x : Text} : x ∈ declared c ↔
    ∃ body, Tree.child? c .body = some body ∧ ∃ m ∈ Tree.children body, Tree.kind m = .member ∧
      ∃ y, Tree.child? m .name = some y ∧ Tree.kind y = .privateName ∧ Tree.text y = x := by
  rw [declared]
  cases Tree.child? c .body with
  | none => simp
  | some body =>
    simp only [List.mem_map, List.mem_filter, List.mem_filterMap, decide_eq_true_eq,
      Option.some.injEq, exists_eq_left']
    constructor
    · rintro ⟨y, ⟨⟨m, ⟨hm, hmember⟩, hname⟩, hy⟩, rfl⟩
      exact ⟨m, hm, hmember, y, hname, hy, rfl⟩
    · rintro ⟨m, hm, hmember, y, hname, hy, rfl⟩
      exact ⟨y, ⟨⟨m, ⟨hm, hmember⟩, hname⟩, hy⟩, rfl⟩

end Lexical

/-- A walker with what a part of the tree yields added to it; the open classes stay. -/
def Walker.after (w : Walker) (f : Found) : Walker where
  scopes := { w.scopes with count := f.count }
  edits := w.edits ++ f.edits
  classCount := w.classCount + f.classes

namespace Walk

variable {τ : Type} [Tree τ]

open Lexical

theorem rename_eq (t : τ) (quoted : Bool) (w : Walker) :
    rename t quoted w = { w with edits := w.edits ++ editOf w.scopes.tables quoted t } := by
  rw [rename, Scopes.resolve, editOf]
  cases w.scopes.tables.findSome? fun table => table.lookup (Tree.text t) with
  | none => simp
  | some r => rfl

theorem run_cons (p : Pending τ) (todo : List (Pending τ)) (w : Walker) :
    run (p :: todo) w = run ((step w p).1 ++ todo) (step w p).2 := by
  rw [run]

/-- What a brand check leaves on the stack and does to the walker. -/
theorem step_brandCheck {t : τ} (h : Tree.kind t = .brandCheck) (w : Walker) :
    step w (.visit t) = ((Tree.inField t .right).map .visit,
      { w with edits := w.edits ++
        (Tree.inField t .left).flatMap (editOf w.scopes.tables true) }) := by
  rw [step, h, Tree.inField, Tree.inField]
  cases Tree.child? t .left <;> cases Tree.child? t .right <;> simp [rename_eq]

/-- **The top of the stack is a call.**  Visiting the node there, or all the nodes there, with
everything below on the stack, leads to the rest of the stack and to the walker that the recursion
yields. -/
theorem run_visit :
    (∀ (t : τ) (todo : List (Pending τ)) (w : Walker),
      run (.visit t :: todo) w = run todo (w.after (visit w.scopes.tables w.scopes.count t))) ∧
    ∀ (ts : List τ) (todo : List (Pending τ)) (w : Walker), run (ts.map .visit ++ todo) w
      = run todo (w.after (visitAll w.scopes.tables w.scopes.count ts)) := by
  refine Tree.induct (fun t hchildren hfields => ?_) ?_ (fun t ts ht hts => ?_)
  · intro todo w
    rw [run_cons, visit]
    cases hk : Tree.kind t with
    | classDef =>
      simp only [step, hk, enter, declaredNames_eq, enter_eq, List.append_assoc, hchildren]
      -- what is left on top of the stack closes the class
      rw [List.singleton_append, run_cons]
      refine congrArg (run todo) ?_
      simp only [step, leave, Scopes.exit?, Walker.after]
      split <;> simp [Nat.add_assoc]
    | brandCheck =>
      rw [step_brandCheck hk, hfields .right]
      exact congrArg (run todo) (by simp only [Walker.after, List.append_assoc])
    | privateName =>
      simp only [step, hk, rename_eq]
      exact congrArg (run todo) (by simp [Walker.after])
    | member | other =>
      simp only [step, hk]
      exact hchildren todo w
  · intro todo w
    rw [visitAll]
    exact congrArg (run todo) (by simp [Walker.after])
  · intro todo w
    rw [List.map_cons, List.cons_append, ht, hts, visitAll]
    refine congrArg (run todo) ?_
    simp only [Walker.after, List.append_assoc, Nat.add_assoc]

/-- One turn of the loop; with nothing left to do it stands still. -/
def turn : List (Pending τ) × Walker → List (Pending τ) × Walker
  | ([], w) => ([], w)
  | (p :: todo, w) => ((step w p).1 ++ todo, (step w p).2)

/-- **The loop comes to its end**, with the walker that `run` gives. -/
theorem exists_turns (todo : List (Pending τ)) (w : Walker) :
    ∃ k, turn^[k] (todo, w) = ([], run todo w) := by
  fun_induction run todo w with
  | case1 w => exact ⟨0, rfl⟩
  | case2 w p todo ih =>
    obtain ⟨k, hk⟩ := ih
    exact ⟨k + 1, hk⟩

theorem walk_eq (w : Walker) (t : τ) :
    w.walk t = w.after (visit w.scopes.tables w.scopes.count t) := by
  rw [Walker.walk, run_visit.1, run]

theorem foldl_walk (w : Walker) (roots : List τ) :
    roots.foldl Walker.walk w = w.after (visitAll w.scopes.tables w.scopes.count roots) := by
  induction roots generalizing w with
  | nil =>
    rw [visitAll]
    simp [Walker.after]
  | cons t roots ih =>
    rw [List.foldl_cons, ih, walk_eq, visitAll]
    simp only [Walker.after, List.append_assoc, Nat.add_assoc]

/-- **The walk is lexical scoping.**  From any walker a walk of a tree comes to its end; it adds
what the recursion finds under the open classes and from the counter, and leaves these classes open
as they were.  One walker walking several roots adds what the recursion finds in all of them, which
is what one walk of a node above them would add. -/
theorem walk_eq_lexical (w : Walker) :
    (∀ t : τ, (∃ k, turn^[k] ([.visit t], w) = ([], w.walk t)) ∧
      w.walk t = w.after (visit w.scopes.tables w.scopes.count t) ∧
      (w.walk t).scopes.tables = w.scopes.tables) ∧
    (∀ roots : List τ,
      roots.foldl Walker.walk w = w.after (visitAll w.scopes.tables w.scopes.count roots) ∧
      (roots.foldl Walker.walk w).scopes.tables = w.scopes.tables) ∧
    ∀ t : τ, Tree.kind t = .other → (Tree.children t).foldl Walker.walk w = w.walk t := by
  refine ⟨fun t => ⟨exists_turns _ w, walk_eq w t, ?_⟩, fun roots => ⟨foldl_walk w roots, ?_⟩,
    fun t ht => ?_⟩
  · rw [walk_eq]
    rfl
  · rw [foldl_walk]
    rfl
  · rw [foldl_walk, walk_eq, visit, ht]

/-- The right side of a node that has both sides. -/
theorem inField_right {k : Kind} {s e : Int} {x : Text} {cs : List (Node Kind)} (l r : Node Kind) :
    Tree.inField (Node.mk k s e x cs [(.left, l), (.right, r)]) .right = [r] := rfl

/-- The tree of `class A{#x}#x in class{}`. -/
def siblings : Node Kind :=
  let x (n : Int) : Node Kind := .mk .privateName n (n + 2) ['#', 'x'] [] []
  let body : Node Kind := .mk .other 7 11 [] [.mk .member 8 10 [] [x 8] [(.name, x 8)]] []
  let check : Node Kind := .mk .brandCheck 11 24 [] [x 11, .mk .classDef 17 24 [] [] []]
    [(.left, x 11), (.right, .mk .classDef 17 24 [] [] [])]
  .mk .other 0 24 [] [.mk .classDef 0 11 [] [body] [(.body, body)], check] []

/-- A walker inside a class that declares `#x`, which has one name handed out. -/
def insideClass : Walker where
  scopes := { count := 1, tables := [[("#x".toList, "$a".toList)]] }
  classCount := 1

/-- Inside that class, the class in the tree declares another `#x`; the `#x` behind it is the one
outside. -/
theorem walk_eq_lexical_siblings :
    Tree.kind siblings = .other ∧
      (Tree.children siblings).foldl Walker.walk insideClass = insideClass.walk siblings ∧
      insideClass.walk siblings = {
        scopes := { count := 2, tables := [[("#x".toList, "$a".toList)]] }
        edits := [⟨8, 10, "$b".toList⟩, ⟨11, 13, "'$a'".toList⟩]
        classCount := 2 } := by
  obtain ⟨hone, -, hroots⟩ := @walk_eq_lexical (Node Kind) _ insideClass
  refine ⟨rfl, hroots siblings rfl, (hone siblings).2.1.trans ?_⟩
  simp only [siblings, visit, visitAll, inField_right, Tree.kind, Tree.children, Node.kind,
    Node.children, id]
  with_unfolding_all rfl

end Walk

end Sigil
