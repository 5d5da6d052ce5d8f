import Mathlib.Tactic.MkIffOfInductiveProp
import Sigil.Convert
import Sigil.Proofs.Edit.InOrder
import Sigil.Proofs.Edit.Pieces
import Sigil.Proofs.Walk.Lexical

/-!
# Proofs/Walk/Spans — the edits of a walk follow the spans of the tree

    children in a row inside their parent  ⟹  edits in order inside the root

A walk comes to the nodes of a tree in document order and writes over a private name just once, so
its edits stand in order wherever the nodes do (`inOrder_visit`).  What "in a row" asks of a node is
put in a `Layout`, a set of nodes that the walk cannot leave; `Tree.WellFormed` is the plainest.
-/

namespace Sigil

namespace Tree

variable {τ : Type} [Tree τ]

/-- Nodes between two offsets, none starting before the one in front of it ends. -/
def InRow (lo hi : Int) : List τ → Prop
  | [] => lo ≤ hi
  | t :: ts => lo ≤ start t ∧ start t ≤ stop t ∧ InRow (stop t) hi ts

theorem InRow.le {lo hi : Int} {ts : List τ} (h : InRow lo hi ts) : lo ≤ hi := by
  induction ts generalizing lo with
  | nil => exact h
  | cons t ts ih =>
    obtain ⟨hstart, hspan, hrest⟩ := h
    exact Int.le_trans hstart (Int.le_trans hspan (ih hrest))

/-- Nodes inside a span that do not overlap, in their order, are in a row. -/
theorem inRow_of_pairwise {lo hi : Int} {ts : List τ} (hle : lo ≤ hi)
    (hin : ∀ t ∈ ts, lo ≤ start t ∧ start t ≤ stop t ∧ stop t ≤ hi)
    (hord : ts.Pairwise fun a b => stop a ≤ start b) : InRow lo hi ts := by
  induction ts generalizing lo with
  | nil => exact hle
  | cons t ts ih =>
    obtain ⟨⟨hlo, hspan, hhi⟩, hrest⟩ := List.forall_mem_cons.1 hin
    obtain ⟨hhead, htail⟩ := List.pairwise_cons.1 hord
    exact ⟨hlo, hspan, ih hhi (fun u hu => ⟨hhead u hu, (hrest u hu).2⟩) htail⟩

/-- Nodes whose spans are laid out as a walk needs them: whatever it goes into from one of them is
in a row inside it, and is one of them again. -/
structure Layout (P : τ → Prop) : Prop where
  /-- The children are in a row. -/
  children : ∀ {t}, P t → InRow (start t) (stop t) (children t)
  /-- So are the two sides of a brand check. -/
  sides : ∀ {t}, P t → kind t = .brandCheck →
    InRow (start t) (stop t) (inField t .left ++ inField t .right)
  /-- Children stay inside the layout. -/
  children_mem : ∀ {t}, P t → ∀ c ∈ Tree.children t, P c
  /-- So do the sides of a brand check. -/
  sides_mem : ∀ {t}, P t → kind t = .brandCheck →
    ∀ u ∈ inField t .left ++ inField t .right, P u

end Tree

namespace Lexical

variable {τ : Type} [Tree τ]

theorem inOrder_editOf (env : List ScopeTable) (quoted : Bool) {t : τ}
    (h : Tree.start t ≤ Tree.stop t) :
    Edit.InOrder (Tree.start t) (Tree.stop t) (editOf env quoted t) := by
  rw [editOf]
  split
  · exact h
  · exact ⟨Int.le_refl _, h, Int.le_refl _⟩

/-- **The edits of a laid out node stand in order inside it**, and those of nodes in a row between
the ends of the row. -/
theorem inOrder_visit {P : τ → Prop} (hP : Tree.Layout P) :
    (∀ (t : τ) (env : List ScopeTable) (n : Nat), P t →
      Edit.InOrder (Tree.start t) (Tree.stop t) (visit env n t).edits) ∧
    ∀ (ts : List τ) (env : List ScopeTable) (n : Nat) (lo hi : Int), (∀ t ∈ ts, P t) →
      Tree.InRow lo hi ts → Edit.InOrder lo hi (visitAll env n ts).edits := by
  refine Tree.induct (fun t hchildren hfields => ?_) ?_ (fun t ts ht hts => ?_)
  · intro env n h
    have hspan : Tree.start t ≤ Tree.stop t := (hP.children h).le
    rw [visit]
    cases hk : Tree.kind t with
    | classDef => exact hchildren _ _ _ _ (hP.children_mem h) (hP.children h)
    | brandCheck =>
      have hright : ∀ lo, Tree.InRow lo (Tree.stop t) (Tree.inField t .right) →
          Edit.InOrder lo (Tree.stop t) (visitAll env n (Tree.inField t .right)).edits :=
        fun lo => hfields .right env n lo _ fun r hr =>
          hP.sides_mem h hk r (List.mem_append_right _ hr)
      have hrow := hP.sides h hk
      rw [Tree.inField] at hrow
      cases hleft : Tree.child? t .left with
      | none =>
        rw [hleft] at hrow
        simp only [Tree.inField, hleft, Option.toList_none, List.flatMap_nil]
        exact hright _ hrow
      | some l =>
        rw [hleft] at hrow
        obtain ⟨hlo, hl, hrest⟩ := hrow
        simp only [Tree.inField, hleft, Option.toList_some, List.flatMap_singleton]
        exact ((inOrder_editOf env true hl).of_le hlo).append (hright _ hrest)
    | privateName => exact inOrder_editOf env false hspan
    | member | other => exact hchildren _ _ _ _ (hP.children_mem h) (hP.children h)
  · intro env n lo hi _ h
    rw [visitAll]
    exact h
  · intro env n lo hi hmem h
    obtain ⟨hlo, hspan, hrest⟩ := h
    obtain ⟨hPt, hPts⟩ := List.forall_mem_cons.1 hmem
    rw [visitAll]
    exact ((ht env n hPt).of_le hlo).append (hts env _ _ _ hPts hrest)

end Lexical

/-! ## Well-formed trees -/

namespace Tree

variable {τ : Type} [Tree τ]

/-- A node whose span lies in a text of length `n` and whose children stand inside it one behind the
other; the sides of a brand check are two of them.  What is below a private name does not matter. -/
@[mk_iff]
structure Laid (n : Nat) (t : τ) : Prop where
  start_nonneg : 0 ≤ start t
  start_le_stop : start t ≤ stop t
  stop_le : stop t ≤ n
  inside : ∀ c ∈ children t, start t ≤ start c ∧ stop c ≤ stop t
  ordered : (children t).Pairwise fun a b => stop a ≤ start b
  left_mem : kind t = .brandCheck → ∀ l, child? t .left = some l → l ∈ children t
  right_mem : kind t = .brandCheck → ∀ r, child? t .right = some r → r ∈ children t
  left_before_right : kind t = .brandCheck → ∀ l r, child? t .left = some l →
    child? t .right = some r → stop l ≤ start r

/-- A tree over a text of length `n`, every node of which is laid out well. -/
inductive WellFormed (n : Nat) : τ → Prop where
  | node {t : τ} (laid : Laid n t) (below : ∀ c ∈ children t, WellFormed n c) : WellFormed n t

variable {n : Nat} {t : τ}

theorem WellFormed.laid (h : WellFormed n t) : Laid n t := by
  cases h with
  | node laid _ => exact laid

theorem WellFormed.of_mem_children (h : WellFormed n t) :
    ∀ c ∈ children t, WellFormed n c := by
  cases h with
  | node _ below => exact below

/-- The span of a child. -/
theorem WellFormed.child_span (h : WellFormed n t) {c : τ} (hc : c ∈ children t) :
    start t ≤ start c ∧ start c ≤ stop c ∧ stop c ≤ stop t :=
  ⟨(h.laid.inside c hc).1, (h.of_mem_children c hc).laid.start_le_stop, (h.laid.inside c hc).2⟩

theorem wellFormed_mk {k : Kind} {s e : Int} {x : Text} {cs : List (Node Kind)}
    {fs : List (Field × Node Kind)} : WellFormed n (Node.mk k s e x cs fs) ↔
      Laid n (Node.mk k s e x cs fs) ∧ ∀ c ∈ cs, WellFormed n c :=
  ⟨fun h => ⟨h.laid, h.of_mem_children⟩, fun h => .node h.1 h.2⟩

/-- The sides of a brand check are children. -/
theorem Laid.side_mem {t u : τ} (h : Laid n t) (hk : kind t = .brandCheck)
    (hu : u ∈ inField t .left ++ inField t .right) : u ∈ children t := by
  rcases List.mem_append.1 hu with hu | hu
  · exact h.left_mem hk u (mem_inField.1 hu)
  · exact h.right_mem hk u (mem_inField.1 hu)

/-- **Well-formed trees are laid out** as a walk needs it. -/
theorem layout_wellFormed (n : Nat) : Layout (τ := τ) (WellFormed n) where
  children h := inRow_of_pairwise h.laid.start_le_stop (fun _ hc => h.child_span hc)
    h.laid.ordered
  sides {t} h hk := by
    refine inRow_of_pairwise h.laid.start_le_stop
      (fun u hu => h.child_span (h.laid.side_mem hk hu)) ?_
    refine List.pairwise_append.2 ⟨?_, ?_, fun l hl r hr => ?_⟩
    · cases hl : child? t .left <;> simp [inField, hl]
    · cases hr : child? t .right <;> simp [inField, hr]
    · exact h.laid.left_before_right hk l r (mem_inField.1 hl) (mem_inField.1 hr)
  children_mem h := h.of_mem_children
  sides_mem h hk u hu := h.of_mem_children u (h.laid.side_mem hk hu)

end Tree

namespace Walk

variable {τ : Type} [Tree τ]

/-- A walk of a well-formed tree finds edits in order. -/
theorem inOrder_walk {n : Nat} {root : τ} (h : Tree.WellFormed n root) (s : Scopes) :
    Edit.InOrder 0 n (({ scopes := s } : Walker).walk root).edits := by
  have hedits := (Lexical.inOrder_visit (Tree.layout_wellFormed n)).1 root s.tables s.count h
  rw [walk_eq, Walker.after, List.nil_append]
  exact (hedits.of_le h.laid.start_nonneg).of_le_right h.laid.stop_le

end Walk

namespace Conversion

variable {τ : Type} [Tree τ]

/-- A text with the sign is rewritten by the edits of the walk, if it takes them. -/
theorem ofTree_of_patch {code out : Text} {root : τ} (hsigil : sigil ∈ code)
    (hsorted : Edit.sorted (({} : Walker).walk root).edits = (({} : Walker).walk root).edits)
    (hpatch : Edit.patch code (({} : Walker).walk root).edits = .ok out) :
    ∃ c, ofTree code root = .ok c ∧ c.code = out ∧ c.edits = (({} : Walker).walk root).edits := by
  have hcontains : (!code.contains sigil) = false := by simpa using hsigil
  rw [ofTree, hcontains, if_neg Bool.false_ne_true]
  simp only [hsorted, hpatch]
  cases hedits : (({} : Walker).walk root).edits with
  | nil =>
    rw [hedits, Edit.patch_nil] at hpatch
    exact ⟨_, rfl, Except.ok.inj hpatch, rfl⟩
  | cons e es => exact ⟨_, rfl, rfl, rfl⟩

/-- Text without the sign is left alone. -/
theorem ofTree_of_notMem {code : Text} (root : τ) (hsigil : sigil ∉ code) :
    ofTree code root = .ok { code := code } := by
  rw [ofTree, if_pos (by simpa using hsigil)]

end Conversion

section

variable {τ : Type} [Tree τ] {code : Text} {root : τ}

/-- A parser hands over a tree, and the caller goes on with it. -/
def GoesOn (parse : Parser τ) (code : Text) (o : ConvertOptions) (root : τ) : Prop :=
  (parse o.language code).root = root ∧
    (o.strict = true → (parse o.language code).fault = none)

/-- A conversion that goes on goes by the tree. -/
theorem convert_of_ofTree {parse : Parser τ} {o : ConvertOptions} {c : Conversion}
    (hgo : GoesOn parse code o root) (h : Conversion.ofTree code root = .ok c) :
    (convert parse code o).2 = .ok c := by
  obtain ⟨rfl, hstrict⟩ := hgo
  have haccept : ((parse o.language code).accept o.filename o.strict).2
      = .ok (parse o.language code).root := by
    rw [Reading.accept]
    cases hfault : (parse o.language code).fault with
    | none => rfl
    | some place =>
      have hlax : o.strict = false := Bool.eq_false_iff.2 fun hs => by simp [hstrict hs] at hfault
      simp only [hlax, Bool.false_eq_true, if_false]
  rw [convert]
  split
  · next hsigil =>
    rw [Conversion.ofTree, if_pos hsigil] at h
    exact congrArg Except.ok (Except.ok.inj h)
  · generalize (parse o.language code).accept o.filename o.strict = accepted at haccept
    obtain ⟨notices, result⟩ := accepted
    obtain rfl : result = .ok (parse o.language code).root := haccept
    simp only [h]

/-- **A well-formed tree never makes the pass fail.**  The edits that a walk finds in it ascend and
do not overlap, sorting leaves them as they are, and the text takes them; a script with the sign of
private names is converted by just these edits, and one without it is left alone. -/
theorem convert_of_wellFormed (h : Tree.WellFormed code.length root) :
    (∀ s : Scopes,
      (({ scopes := s } : Walker).walk root).edits.Pairwise
        (fun a b => a.start ≤ b.start ∧ a.stop ≤ b.start) ∧
      Edit.sorted (({ scopes := s } : Walker).walk root).edits
        = (({ scopes := s } : Walker).walk root).edits) ∧
    ∃ out, Edit.patch code (({} : Walker).walk root).edits = .ok out ∧
      ∀ (parse : Parser τ) (o : ConvertOptions), GoesOn parse code o root →
        (Conversion.sigil ∈ code → ∃ c, (convert parse code o).2 = .ok c ∧ c.code = out ∧
          c.edits = (({} : Walker).walk root).edits) ∧
        (Conversion.sigil ∉ code → (convert parse code o).2 = .ok { code := code }) := by
  have hwalk := Walk.inOrder_walk h {}
  obtain ⟨out, hout⟩ := hwalk.exists_patch
  refine ⟨fun s => ?_, out, hout, fun parse o hgo => ⟨fun hsigil => ?_, fun hsigil => ?_⟩⟩
  · have hs := Walk.inOrder_walk h s
    exact ⟨hs.pairwise, hs.sorted_eq_self⟩
  · obtain ⟨c, hc, hcode, hedits⟩ :=
      Conversion.ofTree_of_patch hsigil hwalk.sorted_eq_self hout
    exact ⟨c, convert_of_ofTree hgo hc, hcode, hedits⟩
  · exact convert_of_ofTree hgo (Conversion.ofTree_of_notMem root hsigil)

end

namespace Tree

/-- The tree of `class{#x=#x in class{#y}}`. -/
def nested : Node Kind :=
  let x (n : Int) : Node Kind := .mk .privateName n (n + 2) ['#', 'x'] [] []
  let y : Node Kind := .mk .privateName 21 23 ['#', 'y'] [] []
  let inner : Node Kind := .mk .other 20 24 [] [.mk .member 21 23 [] [y] [(.name, y)]] []
  let right : Node Kind := .mk .classDef 15 24 [] [inner] [(.body, inner)]
  let check : Node Kind := .mk .brandCheck 9 24 [] [x 9, right] [(.left, x 9), (.right, right)]
  let member : Node Kind := .mk .member 6 24 [] [x 6, check] [(.name, x 6)]
  let outer : Node Kind := .mk .other 5 25 [] [member] []
  .mk .classDef 0 25 [] [outer] [(.body, outer)]

theorem wellFormed_nested : Tree.WellFormed 25 nested := by
  have hright : (Field.right == Field.left) = false := rfl
  simp [nested, Tree.wellFormed_mk, Tree.laid_iff, Tree.children, Tree.start, Tree.stop, Tree.kind,
    Tree.child?, Node.children, Node.start, Node.stop, Node.kind, Node.child?, Node.fields,
    List.lookup_cons, hright]

theorem walk_nested : ({} : Walker).walk nested = {
    scopes := { count := 2 }
    edits := [⟨6, 8, "$a".toList⟩, ⟨9, 11, "'$a'".toList⟩, ⟨21, 23, "$b".toList⟩]
    classCount := 2 } := by
  rw [Walk.walk_eq]
  simp only [nested, Lexical.visit, Lexical.visitAll, Walk.inField_right, Tree.kind, Tree.children,
    Node.kind, Node.children, id]
  with_unfolding_all rfl

end Tree

/-- How a text is converted by this tree, if it takes the edits. -/
theorem Conversion.ofTree_nested {code out : Text} (hsigil : sigil ∈ code)
    (hpatch : Edit.patchFrom code 0
      [⟨6, 8, "$a".toList⟩, ⟨9, 11, "'$a'".toList⟩, ⟨21, 23, "$b".toList⟩] = .ok out) :
    ofTree code Tree.nested = .ok {
      code := out
      classCount := 2
      fieldCount := 2
      editCount := 3
      edits := [⟨6, 8, "$a".toList⟩, ⟨9, 11, "'$a'".toList⟩, ⟨21, 23, "$b".toList⟩] } := by
  have hcontains : (!code.contains sigil) = false := by simpa using hsigil
  have hsorted : Edit.sorted [⟨6, 8, "$a".toList⟩, ⟨9, 11, "'$a'".toList⟩, ⟨21, 23, "$b".toList⟩]
      = [⟨6, 8, "$a".toList⟩, ⟨9, 11, "'$a'".toList⟩, ⟨21, 23, "$b".toList⟩] :=
    Edit.sorted_of_perm .rfl (by decide)
  rw [ofTree, hcontains, if_neg Bool.false_ne_true, Tree.walk_nested]
  simp only [Edit.patch, hsorted, hpatch]
  rfl

theorem convert_of_wellFormed_nested :
    Tree.WellFormed 25 Tree.nested ∧
      ∃ c, (convert (fun _ _ => ⟨Tree.nested, none⟩)
          "class\x7b#x=#x in class\x7b#y\x7d\x7d".toList { filename := "a.js" }).2 = .ok c ∧
        c.code = "class\x7b$a='$a' in class\x7b$b\x7d\x7d".toList ∧
        c.edits = [⟨6, 8, "$a".toList⟩, ⟨9, 11, "'$a'".toList⟩, ⟨21, 23, "$b".toList⟩] := by
  have hnested : Tree.WellFormed
      (List.length "class\x7b#x=#x in class\x7b#y\x7d\x7d".toList) Tree.nested :=
    Tree.wellFormed_nested
  obtain ⟨-, out, hout, hconvert⟩ := convert_of_wellFormed hnested
  have hpatch : Edit.patch "class\x7b#x=#x in class\x7b#y\x7d\x7d".toList
      [⟨6, 8, "$a".toList⟩, ⟨9, 11, "'$a'".toList⟩, ⟨21, 23, "$b".toList⟩]
      = .ok "class\x7b$a='$a' in class\x7b$b\x7d\x7d".toList := by
    rw [Edit.patch, Edit.sorted_of_perm .rfl (by decide)]
    rfl
  obtain ⟨c, hc, hcode, hedits⟩ := (hconvert (fun _ _ => ⟨Tree.nested, none⟩)
    { filename := "a.js" } ⟨rfl, fun _ => rfl⟩).1 (by decide)
  rw [Tree.walk_nested] at hout hedits
  refine ⟨Tree.wellFormed_nested, c, hc, ?_, hedits⟩
  exact hcode.trans (Except.ok.inj (hout.symm.trans hpatch))

/-- The tree of `class{x}`, whose private name is written without the sign. -/
def Tree.unsigned : Node Kind :=
  let x : Node Kind := .mk .privateName 6 7 ['x'] [] []
  let body : Node Kind := .mk .other 5 8 [] [.mk .member 6 7 [] [x] [(.name, x)]] []
  .mk .classDef 0 8 [] [body] [(.body, body)]

/-- **Without the sign nothing is rewritten**, though the walk finds an edit and the text takes
it. -/
theorem convert_unsigned :
    Tree.WellFormed 8 Tree.unsigned ∧
      Edit.patch "class\x7bx\x7d".toList (({} : Walker).walk Tree.unsigned).edits
        = .ok "class\x7b$a\x7d".toList ∧
      (convert (fun _ _ => ⟨Tree.unsigned, none⟩) "class\x7bx\x7d".toList
        { filename := "a.js" }).2 = .ok { code := "class\x7bx\x7d".toList } ∧
      ¬ ∃ c, (convert (fun _ _ => ⟨Tree.unsigned, none⟩) "class\x7bx\x7d".toList
          { filename := "a.js" }).2 = .ok c ∧
        Edit.patch "class\x7bx\x7d".toList (({} : Walker).walk Tree.unsigned).edits
          = .ok c.code ∧
        c.edits = (({} : Walker).walk Tree.unsigned).edits := by
  have hwf : Tree.WellFormed 8 Tree.unsigned := by
    simp [Tree.unsigned, Tree.wellFormed_mk, Tree.laid_iff, Tree.children, Tree.start, Tree.stop,
      Tree.kind, Tree.child?, Node.children, Node.start, Node.stop, Node.kind, Node.child?,
      Node.fields]
  have hwalk : (({} : Walker).walk Tree.unsigned).edits = [⟨6, 7, "$a".toList⟩] := by
    rw [Walk.walk_eq]
    simp only [Tree.unsigned, Lexical.visit, Lexical.visitAll, Tree.kind, Tree.children, Node.kind,
      Node.children, id]
    with_unfolding_all rfl
  have hpatch : Edit.patch "class\x7bx\x7d".toList [⟨6, 7, "$a".toList⟩]
      = .ok "class\x7b$a\x7d".toList := by with_unfolding_all rfl
  have hsame : (convert (fun _ _ => ⟨Tree.unsigned, none⟩) "class\x7bx\x7d".toList
      { filename := "a.js" }).2 = .ok { code := "class\x7bx\x7d".toList } :=
    convert_of_ofTree ⟨rfl, fun _ => rfl⟩ (Conversion.ofTree_of_notMem _ (by decide))
  refine ⟨hwf, hwalk ▸ hpatch, hsame, ?_⟩
  rintro ⟨c, hc, -, hedits⟩
  obtain rfl := Except.ok.inj (hsame.symm.trans hc)
  rw [hwalk] at hedits
  exact List.cons_ne_nil _ _ hedits.symm

end Sigil
