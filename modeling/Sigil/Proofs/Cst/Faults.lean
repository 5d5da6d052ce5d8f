import Mathlib.Data.List.Basic
import Mathlib.Logic.Function.Iterate
import Sigil.Cst
import Sigil.Proofs.Walk.Lexical

/-!
# Proofs/Cst/Faults — a broken script is reported where it first breaks

    firstFaulty [root]   =   the first fault among all nodes of the tree, in document order

The search keeps a stack and goes below marked nodes only.  Where just the nodes with a fault at or
below them are marked, it leaves out none (`firstFaulty_eq_find?`).  The marks serve no other end:
the pass sees the same tree with them as without (`copy_unmarked`).
-/

namespace Sigil

namespace Tree

variable {τ : Type} [Tree τ]

mutual

/-- **All that the pass can see of a tree**, written out: the kinds, spans and texts of its nodes,
their children, and what is in their fields. -/
def copy (t : τ) : Node Kind :=
  .mk (kind t) (start t) (stop t) (text t) (copyAll (children t))
    (Field.all.flatMap fun f => (copyAll (inField t f)).map fun u => (f, u))
termination_by (size t, 0)
decreasing_by
  · exact .left _ _ (size_children t)
  · exact .left _ _ (size_inField t f)

/-- Trees side by side, written out. -/
def copyAll : List τ → List (Node Kind)
  | [] => []
  | t :: ts => copy t :: copyAll ts
termination_by ts => (total size ts, 1)
decreasing_by
  · exact lt_head t ts
  · exact lt_tail t ts

end

end Tree

/-- What a node says of itself, but for faults. -/
def CstInfo.unmarked (i : CstInfo) : CstInfo :=
  { i with isError := false, isMissing := false, hasError := false }

namespace Cst

/-! ## The nodes of a tree -/

mutual

/-- Every node of a tree, tokens included, each before the nodes below it. -/
def nodes : Cst → List Cst
  | .mk info cs fs => .mk info cs fs :: nodesAll cs

/-- Every node of trees side by side. -/
def nodesAll : List Cst → List Cst
  | [] => []
  | c :: cs => nodes c ++ nodesAll cs

end

theorem nodesAll_eq (cs : List Cst) : nodesAll cs = cs.flatMap nodes := by
  induction cs with
  | nil => rfl
  | cons c cs ih => rw [nodesAll, ih, List.flatMap_cons]

theorem nodes_eq (c : Cst) : c.nodes = c :: c.children.flatMap nodes := by
  cases c
  rw [nodes, nodesAll_eq]
  rfl

/-- **A tree is marked right**: just the nodes with a fault at or below them carry the mark. -/
def Marked (root : Cst) : Prop :=
  ∀ c ∈ root.nodes, c.info.hasError = true ↔ ∃ u ∈ c.nodes, u.faulty = true

instance (root : Cst) : Decidable (Marked root) :=
  inferInstanceAs
    (Decidable (∀ c ∈ root.nodes, c.info.hasError = true ↔ ∃ u ∈ c.nodes, u.faulty = true))

variable {root : Cst} {todo : List Cst}

theorem Marked.here (h : Marked root) :
    root.info.hasError = true ↔ ∃ u ∈ root.nodes, u.faulty = true := by
  refine h root ?_
  rw [nodes_eq]
  exact List.mem_cons_self

/-- The mark of the root says whether a search of all nodes finds a fault. -/
theorem Marked.hasError_eq (h : Marked root) :
    root.info.hasError = (root.nodes.find? faulty).isSome :=
  Bool.eq_iff_iff.2 (h.here.trans List.find?_isSome.symm)

theorem Marked.of_mem_children (h : Marked root) : ∀ c ∈ root.children, Marked c := by
  intro c hc u hu
  refine h u ?_
  rw [nodes_eq]
  exact List.mem_cons_of_mem _ (List.mem_flatMap.2 ⟨c, hc, hu⟩)

/-! ## The search -/

/-- **Passing by what is not marked** passes by no fault. -/
theorem firstFaulty_eq_find? (h : ∀ c ∈ todo, Marked c) :
    firstFaulty todo = (todo.flatMap nodes).find? faulty := by
  fun_induction firstFaulty todo with
  | case1 => rfl
  | case2 c rest hc => rw [List.flatMap_cons, nodes_eq, List.cons_append, List.find?_cons_of_pos hc]
  | case3 c rest hc _ ih =>
    obtain ⟨hhead, htail⟩ := List.forall_mem_cons.1 h
    rw [ih (List.forall_mem_append.2 ⟨hhead.of_mem_children, htail⟩), List.flatMap_cons, nodes_eq,
      List.cons_append, List.find?_cons_of_neg hc, List.flatMap_append]
  | case4 c rest _ hmark ih =>
    obtain ⟨hhead, htail⟩ := List.forall_mem_cons.1 h
    have hnone : c.nodes.find? faulty = none :=
      List.find?_eq_none.2 fun u hu hfault => hmark (hhead.here.2 ⟨u, hu, hfault⟩)
    rw [ih htail, List.flatMap_cons, List.find?_append, hnone, Option.none_or]

theorem firstFaulty_root (h : Marked root) : firstFaulty [root] = root.nodes.find? faulty := by
  rw [firstFaulty_eq_find? (List.forall_mem_singleton.2 h), List.flatMap_singleton]

/-- One turn of the search: the node on top gives way to its children, if it is marked.  Over a
fault, and with nothing left, the search stands still. -/
def turn : List Cst → List Cst
  | [] => []
  | c :: rest =>
    if c.faulty then c :: rest else if c.info.hasError then c.children ++ rest else rest

/-- **The search comes to its end**, with no more turns than there are nodes. -/
theorem exists_turns (todo : List Cst) : ∃ k ≤ (todo.flatMap nodes).length,
    turn (turn^[k] todo) = turn^[k] todo ∧ (turn^[k] todo).head? = firstFaulty todo := by
  fun_induction firstFaulty todo with
  | case1 => exact ⟨0, Nat.le_refl 0, rfl, rfl⟩
  | case2 c rest hc => exact ⟨0, Nat.zero_le _, if_pos hc, rfl⟩
  | case3 c rest hc hmark ih =>
    obtain ⟨k, hk, hturns⟩ := ih
    have hturn : turn (c :: rest) = c.children ++ rest := by rw [turn, if_neg hc, if_pos hmark]
    refine ⟨k + 1, ?_, ?_⟩
    · rw [List.flatMap_cons, nodes_eq, List.cons_append, List.length_cons, ← List.flatMap_append]
      exact Nat.succ_le_succ hk
    · rw [Function.iterate_succ_apply, hturn]
      exact hturns
  | case4 c rest hc hmark ih =>
    obtain ⟨k, hk, hturns⟩ := ih
    have hturn : turn (c :: rest) = rest := by rw [turn, if_neg hc, if_neg hmark]
    refine ⟨k + 1, ?_, ?_⟩
    · rw [List.flatMap_cons, nodes_eq, List.cons_append, List.length_cons, List.length_append]
      omega
    · rw [Function.iterate_succ_apply, hturn]
      exact hturns

/-- Where a node is reported: rows are counted from 1. -/
def place (c : Cst) : Place := ⟨c.info.row + 1, c.info.column⟩

/-- **The place of the first fault.** -/
theorem fault?_eq (h : Marked root) : root.fault? = (root.nodes.find? faulty).map place := by
  rw [fault?, firstFaulty_root h, h.hasError_eq]
  cases root.nodes.find? faulty <;> rfl

/-! ## Trees without their marks -/

mutual

/-- A tree without its marks. -/
def unmarked : Cst → Cst
  | .mk info cs fs => .mk info.unmarked (unmarkedAll cs) (unmarkedFields fs)

/-- Trees side by side, without their marks. -/
def unmarkedAll : List Cst → List Cst
  | [] => []
  | c :: cs => unmarked c :: unmarkedAll cs

/-- What is in some fields, without its marks. -/
def unmarkedFields : List (String × Cst) → List (String × Cst)
  | [] => []
  | (f, c) :: fs => (f, unmarked c) :: unmarkedFields fs

end

theorem info_unmarked (c : Cst) : c.unmarked.info = c.info.unmarked := by
  cases c
  rw [unmarked]
  rfl

theorem unmarkedAll_eq (cs : List Cst) : unmarkedAll cs = cs.map unmarked := by
  induction cs with
  | nil => rfl
  | cons c cs ih => rw [unmarkedAll, ih, List.map_cons]

theorem children_unmarked (c : Cst) : c.unmarked.children = c.children.map unmarked := by
  cases c
  rw [unmarked]
  exact unmarkedAll_eq _

theorem lookup_unmarkedFields (fs : List (String × Cst)) (f : String) :
    (unmarkedFields fs).lookup f = (fs.lookup f).map unmarked := by
  induction fs with
  | nil => rfl
  | cons p fs ih =>
    obtain ⟨g, c⟩ := p
    rw [unmarkedFields, List.lookup_cons, List.lookup_cons, ih]
    cases f == g <;> rfl

theorem field?_unmarked (c : Cst) (f : String) :
    c.unmarked.field? f = (c.field? f).map unmarked := by
  cases c
  rw [unmarked]
  exact lookup_unmarkedFields _ f

theorem child?_unmarked (c : Cst) (f : Field) :
    c.unmarked.child? f = (c.child? f).map unmarked := by
  rw [child?, child?, field?_unmarked, field?_unmarked]
  cases c.field? f.label with
  | some u => rfl
  | none => by_cases hf : f = .name <;> simp [hf]

/-- A node is of the same kind without marks. -/
theorem kind_unmarked (c : Cst) : c.unmarked.kind = c.kind := by
  have htype : ∀ u : Cst, u.unmarked.info.type = u.info.type := fun u => by
    rw [info_unmarked]
    rfl
  rw [kind, kind, htype, field?_unmarked, field?_unmarked]
  cases c.field? "operator" <;> cases c.field? "left" <;> simp [htype]

namespace View

/-- A view of a tree without its marks. -/
def unmarked (v : View) : View := ⟨v.source, v.node.unmarked⟩

theorem children_unmarked (v : View) :
    Tree.children v.unmarked = (Tree.children v).map unmarked := by
  have hnamed : ∀ u : Cst, u.unmarked.info.named = u.info.named := fun u => by
    rw [info_unmarked]
    rfl
  change ((v.node.unmarked.children.filter _).map _ : List View)
    = ((v.node.children.filter _).map _).map _
  rw [Cst.children_unmarked, List.filter_map, List.map_map, List.map_map]
  exact congrArg (List.map _) (List.filter_congr fun u _ => hnamed u)

theorem inField_unmarked (v : View) (f : Field) :
    Tree.inField v.unmarked f = (Tree.inField v f).map unmarked := by
  change ((v.node.unmarked.child? f).map _).toList = ((v.node.child? f).map _).toList.map _
  rw [child?_unmarked]
  cases v.node.child? f <;> rfl

end View

/-- **The pass sees no marks.** -/
theorem copy_unmarked :
    (∀ v : View, Tree.copy v.unmarked = Tree.copy v) ∧
      ∀ vs : List View, Tree.copyAll (vs.map View.unmarked) = Tree.copyAll vs := by
  refine Tree.induct (fun v hchildren hfields => ?_) rfl (fun v vs hv hvs => ?_)
  · have hkind : Tree.kind v.unmarked = Tree.kind v := kind_unmarked v.node
    have hstart : Tree.start v.unmarked = Tree.start v := by
      change v.source.index.toOffset v.node.unmarked.info.start = _
      rw [info_unmarked]
      rfl
    have hstop : Tree.stop v.unmarked = Tree.stop v := by
      change v.source.index.toOffset v.node.unmarked.info.stop = _
      rw [info_unmarked]
      rfl
    have htext : Tree.text v.unmarked = Tree.text v := congrArg₂ v.source.code.slice hstart hstop
    rw [Tree.copy, Tree.copy, hkind, hstart, hstop, htext, v.children_unmarked, hchildren]
    refine congrArg _ (List.flatMap_congr fun f _ => ?_)
    rw [v.inField_unmarked, hfields]
  · rw [List.map_cons, Tree.copyAll, hv, hvs, Tree.copyAll]

/-! ## Going on or not -/

/-- Callers that are not strict go on with the tree, whatever its faults. -/
theorem accept_tolerant (root : Cst) (language : Language) (code : Text) (filename : String) :
    ((parser root language code).accept filename false).2 = .ok ⟨.ofText code, root⟩ := by
  rw [Reading.accept, parser]
  cases root.fault? <;> rfl

/-- What comes of a marked tree: the first fault stops strict callers and is reported to others. -/
theorem accept_eq (h : Marked root) (language : Language) (code : Text) (filename : String)
    (strict : Bool) : (parser root language code).accept filename strict =
      match root.nodes.find? faulty with
      | none => ([], .ok ⟨.ofText code, root⟩)
      | some c =>
        if strict then ([], .error ⟨filename, c.place⟩)
        else ([.recovered filename c.place], .ok ⟨.ofText code, root⟩) := by
  rw [Reading.accept, parser]
  simp only [fault?_eq h]
  cases root.nodes.find? faulty <;> rfl

/-- **A broken script is reported where it first breaks.**  Let a tree be marked right.  Reading it
fails iff the caller is strict and there is a fault in the tree.  What is told to a strict caller or
reported to any other is the place of the first fault of all nodes in document order, and nothing is
reported where there is none.  The search that looks only below marked nodes finds just this fault,
with no more turns than there are nodes.  And a caller that is not strict sees the same tree as if
its marks were others, or none. -/
theorem accept_marked (h : Marked root) (language : Language) (code : Text) (filename : String) :
    (∀ strict, (∃ b, ((parser root language code).accept filename strict).2 = .error b) ↔
      strict = true ∧ ∃ c ∈ root.nodes, c.faulty = true) ∧
    (∀ c, root.nodes.find? faulty = some c →
      (parser root language code).accept filename true
          = ([], .error ⟨filename, ⟨c.info.row + 1, c.info.column⟩⟩) ∧
        (parser root language code).accept filename false
          = ([.recovered filename ⟨c.info.row + 1, c.info.column⟩], .ok ⟨.ofText code, root⟩)) ∧
    (root.nodes.find? faulty = none → ∀ strict,
      (parser root language code).accept filename strict = ([], .ok ⟨.ofText code, root⟩)) ∧
    firstFaulty [root] = root.nodes.find? faulty ∧
    (∃ k ≤ root.nodes.length, turn (turn^[k] [root]) = turn^[k] [root] ∧
      (turn^[k] [root]).head? = firstFaulty [root]) ∧
    ∀ other : Cst, other.unmarked = root.unmarked →
      ∃ v w, ((parser root language code).accept filename false).2 = .ok v ∧
        ((parser other language code).accept filename false).2 = .ok w ∧
        Tree.copy v = Tree.copy w := by
  have haccept := accept_eq h language code filename
  have hturns := exists_turns [root]
  rw [List.flatMap_singleton] at hturns
  refine ⟨fun strict => ?_, fun c hc => ?_, fun hnone strict => ?_, firstFaulty_root h, hturns,
    fun other hother => ⟨_, _, accept_tolerant .., accept_tolerant .., ?_⟩⟩
  · rw [haccept, ← List.find?_isSome]
    cases root.nodes.find? faulty <;> cases strict <;> simp
  · rw [haccept, haccept, hc]
    exact ⟨rfl, rfl⟩
  · rw [haccept, hnone]
  · have hroot := copy_unmarked.1 ⟨.ofText code, root⟩
    have hcopy := copy_unmarked.1 ⟨.ofText code, other⟩
    rw [View.unmarked] at hroot hcopy
    rw [← hroot, ← hcopy, hother]

/-- A class without a fault, a block whose end is missing in front of an error, and an error with
another inside. -/
def nested : Cst :=
  let closing : Cst := .mk { type := "\x7d", start := 11, stop := 11, named := false,
                             isMissing := true, hasError := true, row := 1, column := 2 } [] []
  let deep : Cst := .mk { type := "ERROR", start := 12, stop := 13, isError := true,
                          hasError := true, row := 1, column := 3 } [] []
  let outer : Cst := .mk { type := "ERROR", start := 11, stop := 13, isError := true,
                           hasError := true, row := 1, column := 2 } [deep] []
  let block : Cst := .mk { type := "statement_block", start := 9, stop := 11, hasError := true,
                           row := 1 } [closing] []
  let clean : Cst := .mk { type := "class", start := 0, stop := 8 } [] []
  .mk { type := "program", start := 0, stop := 13, hasError := true } [clean, block, outer] []

theorem accept_marked_nested :
    Marked nested ∧
      (parser nested .javascript []).accept "a.js" true = ([], .error ⟨"a.js", ⟨2, 2⟩⟩) ∧
      (parser nested .javascript []).accept "a.js" false
        = ([.recovered "a.js" ⟨2, 2⟩], .ok ⟨.ofText [], nested⟩) ∧
      (∃ v w, ((parser nested .javascript []).accept "a.js" false).2 = .ok v ∧
        ((parser nested.unmarked .javascript []).accept "a.js" false).2 = .ok w ∧
        Tree.copy v = Tree.copy w) ∧
      Marked nested.unmarked ∧ (parser nested.unmarked .javascript []).accept "a.js" true
        = ([], .ok ⟨.ofText [], nested.unmarked⟩) := by
  have hmarked : Marked nested := by decide
  have hunmarked : Marked nested.unmarked := by decide
  obtain ⟨-, hfirst, -, -, -, hsame⟩ := accept_marked hmarked .javascript [] "a.js"
  obtain ⟨-, -, hnone, -⟩ := accept_marked hunmarked .javascript [] "a.js"
  obtain ⟨hstrict, htolerant⟩ := hfirst _ rfl
  exact ⟨hmarked, hstrict, htolerant, hsame nested.unmarked rfl, hunmarked, hnone rfl true⟩

end Cst

end Sigil
