import Sigil.Cst
import Sigil.Proofs.Edit.Pieces
import Sigil.Proofs.Text.Bytes
import Sigil.Proofs.Walk.Binding
import Sigil.Proofs.Walk.Spans

/-!
# Proofs/Cst/Bytes — rewriting a script rewrites its bytes

    code ── edits in characters ──▸ out
     │ encode                        │ encode
    bytes ── edits in bytes ──────▸ bytes

A parser gives spans in bytes and the pass works on characters.  Over a concrete tree whose spans
are `Placed` on boundaries, the bytes of the rewritten script are the bytes of the script with the
span of every resolved concrete node replaced (`encode_convert`).
-/

namespace Sigil

namespace Edit

/-- Copies bytes from an offset on, replacing the spans of edits that stand in order and are counted
in bytes. -/
def spliceFrom (bytes : ByteArray) (done : Int) : List Edit → ByteArray
  | [] => bytes.extract done.toNat bytes.size
  | e :: edits =>
    bytes.extract done.toNat e.start.toNat ++ Text.encode e.newText ++
      spliceFrom bytes e.stop edits

/-- An edit counted in bytes. -/
def inBytes (code : Text) (e : Edit) : Edit :=
  ⟨Text.byteLength (code.take e.start.toNat), Text.byteLength (code.take e.stop.toNat), e.newText⟩

/-- Counting in bytes keeps edits in order. -/
theorem InOrder.inBytes (code : Text) {lo hi : Int} {es : List Edit} (h : InOrder lo hi es) :
    InOrder (Text.byteLength (code.take lo.toNat)) (Text.byteLength (code.take hi.toNat))
      (es.map (Edit.inBytes code)) := by
  have hmono : ∀ {a b : Int}, a ≤ b → (Text.byteLength (code.take a.toNat) : Int)
      ≤ Text.byteLength (code.take b.toNat) := fun hab =>
    Int.ofNat_le.2 (Text.byteLength_take_le code (Int.toNat_le_toNat hab))
  induction es generalizing lo with
  | nil => exact hmono h
  | cons e es ih => exact ⟨hmono h.1, hmono h.2.1, ih h.2.2⟩

end Edit

namespace Piece

/-- The bytes of the pieces are put together like the pieces. -/
theorem splice_edits (u tail : Text) (ps : List Piece) :
    Edit.spliceFrom (Text.encode (u ++ before tail ps)) (Text.byteLength u)
        ((edits u.length ps).map (Edit.inBytes (u ++ before tail ps)))
      = Text.encode (after tail ps) := by
  induction ps generalizing u with
  | nil => exact Text.extract_encode_right u tail
  | cons p ps ih =>
    have htext : u ++ before tail (p :: ps) = (u ++ (p.kept ++ p.old)) ++ before tail ps := by
      simp only [before, List.append_assoc]
    have hlen : u.length + p.width = (u ++ (p.kept ++ p.old)).length := by
      rw [width, List.length_append, List.length_append]
    have hstart : (u ++ before tail (p :: ps)).take (u.length + p.kept.length) = u ++ p.kept := by
      rw [List.take_length_add_append, before, List.take_left]
    have hstop : (u ++ before tail (p :: ps)).take (u.length + p.width)
        = u ++ (p.kept ++ p.old) := by
      rw [hlen, htext, List.take_left]
    have hkept := Text.extract_encode_append u p.kept (p.old ++ before tail ps)
    have hrest := ih (u ++ (p.kept ++ p.old))
    rw [← htext, ← hlen] at hrest
    rw [edits, List.map_cons, Edit.spliceFrom]
    simp only [Edit.inBytes, Int.toNat_natCast, hstart, hstop]
    rw [hrest, after, Text.encode_append p.kept, Text.encode_append p.new,
      ← ByteArray.append_assoc]
    exact congrArg (· ++ _ ++ _) hkept

end Piece

/-- **Replacing characters replaces bytes.** -/
theorem Edit.encode_patch {code out : Text} {es : List Edit} (hsorted : sorted es = es)
    (h : patch code es = .ok out) :
    Text.encode out = spliceFrom (Text.encode code) 0 (es.map (inBytes code)) := by
  obtain ⟨ps, tail, rfl, hes, rfl⟩ := Piece.patch_eq_ok_iff.1 h
  rw [← hsorted, hes]
  exact (Piece.splice_edits [] tail ps).symm

/-! ## Occurrences in a layout -/

/-- The nodes of occurrences stay inside a layout. -/
theorem Lexical.mem_of_layout {τ : Type} [Tree τ] {P : τ → Prop} (hP : Tree.Layout P) :
    (∀ (t : τ) (around : List (Address × τ)) (a : Address), P t →
      ∀ o ∈ occurrences around a t, P o.node) ∧
    ∀ (ts : List τ) (around : List (Address × τ)) (a : Address) (i : Nat), (∀ t ∈ ts, P t) →
      ∀ o ∈ occurrencesAll around a i ts, P o.node := by
  refine Tree.induct (fun t hchildren hfields => ?_) ?_ (fun t ts ht hts => ?_)
  · intro around a h o ho
    rw [occurrences] at ho
    cases hk : Tree.kind t with
    | classDef =>
      simp only [hk] at ho
      exact hchildren _ _ _ (hP.children_mem h) o ho
    | brandCheck =>
      have hsides := List.forall_mem_append.1 (hP.sides_mem h hk)
      simp only [hk, List.mem_append, List.mem_map] at ho
      rcases ho with ⟨l, hl, rfl⟩ | ho
      · exact hsides.1 l hl
      · exact hfields .right _ _ _ hsides.2 o ho
    | privateName =>
      simp only [hk, List.mem_singleton] at ho
      exact ho ▸ h
    | member | other =>
      simp only [hk] at ho
      exact hchildren _ _ _ (hP.children_mem h) o ho
  · intro around a i _ o ho
    rw [occurrencesAll] at ho
    exact absurd ho List.not_mem_nil
  · intro around a i h o ho
    obtain ⟨hPt, hPts⟩ := List.forall_mem_cons.1 h
    rw [occurrencesAll, List.mem_append] at ho
    rcases ho with ho | ho
    · exact ht _ _ hPt o ho
    · exact hts _ _ _ hPts o ho

namespace Cst

/-! ## Trees with their spans on boundaries -/

/-- A node over a text: its span starts and ends between characters, and its children stand inside
it one behind the other.  As a parser has it, fields hold children, and the left side of a brand
check stands in front of the right one. -/
@[mk_iff]
structure Laid (code : Text) (c : Cst) : Prop where
  start_mem : code.Boundary c.info.start
  stop_mem : code.Boundary c.info.stop
  start_le_stop : c.info.start ≤ c.info.stop
  inside : ∀ u ∈ c.children, c.info.start ≤ u.info.start ∧ u.info.stop ≤ c.info.stop
  ordered : c.children.Pairwise fun a b => a.info.stop ≤ b.info.start
  field_mem : ∀ p ∈ c.fields, p.2 ∈ c.children
  sides : c.kind = .brandCheck → ∀ l r, c.field? "left" = some l → c.field? "right" = some r →
    [l, r].Sublist c.children

/-- A concrete tree over a text, every node of which is laid out well. -/
inductive Placed (code : Text) : Cst → Prop where
  | node {c : Cst} (laid : Laid code c) (below : ∀ u ∈ c.children, Placed code u) : Placed code c

/-- The nodes of a tree, tokens included. -/
inductive Below (root : Cst) : Cst → Prop where
  | root : Below root root
  | child {c u : Cst} (h : Below root c) (hu : u ∈ c.children) : Below root u

variable {code : Text} {root c u : Cst}

theorem Placed.laid (h : Placed code c) : Laid code c := by
  cases h with
  | node laid _ => exact laid

theorem Placed.of_mem_children (h : Placed code c) : ∀ u ∈ c.children, Placed code u := by
  cases h with
  | node _ below => exact below

theorem Placed.of_below (h : Placed code root) (hu : Below root u) : Placed code u := by
  induction hu with
  | root => exact h
  | child _ hu ih => exact ih.of_mem_children _ hu

/-- **The text of a node is what its bytes say.** -/
theorem Placed.decode?_extract (h : Placed code c) :
    Text.decode? ((Text.encode code).extract c.info.start.toNat c.info.stop.toNat)
      = some (Tree.text (View.mk (.ofText code) c)) :=
  h.laid.start_mem.decode?_extract h.laid.stop_mem h.laid.start_le_stop

/-! ## The tree of the pass over such a tree -/

/-- A view of a placed node. -/
def Over (code : Text) (v : View) : Prop := v.source = .ofText code ∧ Placed code v.node

theorem View.start_eq {v : View} (h : Over code v) :
    Tree.start v = (Text.ByteIndex.ofText code).toOffset v.node.info.start := by
  change v.source.index.toOffset v.node.info.start = _
  rw [h.1]
  rfl

theorem View.stop_eq {v : View} (h : Over code v) :
    Tree.stop v = (Text.ByteIndex.ofText code).toOffset v.node.info.stop := by
  change v.source.index.toOffset v.node.info.stop = _
  rw [h.1]
  rfl

theorem Over.start_le_stop {v : View} (h : Over code v) : Tree.start v ≤ Tree.stop v := by
  rw [View.start_eq h, View.stop_eq h, Text.toOffset_le_iff h.2.laid.start_mem h.2.laid.stop_mem]
  exact h.2.laid.start_le_stop

/-- Views of children are views of placed nodes. -/
theorem Over.child {v : View} (h : Over code v) (hu : u ∈ v.node.children) :
    Over code (View.mk v.source u) := ⟨h.1, h.2.of_mem_children u hu⟩

/-- **Children that stand one behind the other in bytes do so in characters.** -/
theorem Over.inRow {v : View} (h : Over code v) {us : List Cst} (hus : us.Sublist v.node.children) :
    Tree.InRow (Tree.start v) (Tree.stop v) (us.map (View.mk v.source)) := by
  have hchild : ∀ u ∈ us, Over code (View.mk v.source u) := fun u hu => h.child (hus.subset hu)
  refine Tree.inRow_of_pairwise h.start_le_stop (List.forall_mem_map.2 fun u hu => ?_) ?_
  · have hin := h.2.laid.inside u (hus.subset hu)
    refine ⟨?_, (hchild u hu).start_le_stop, ?_⟩
    · rw [View.start_eq h, View.start_eq (hchild u hu),
        Text.toOffset_le_iff h.2.laid.start_mem (hchild u hu).2.laid.start_mem]
      exact hin.1
    · rw [View.stop_eq h, View.stop_eq (hchild u hu),
        Text.toOffset_le_iff (hchild u hu).2.laid.stop_mem h.2.laid.stop_mem]
      exact hin.2
  · rw [List.pairwise_map]
    refine (h.2.laid.ordered.sublist hus).imp_of_mem fun {a b} ha hb hab => ?_
    rw [View.stop_eq (hchild a ha), View.start_eq (hchild b hb),
      Text.toOffset_le_iff (hchild a ha).2.laid.stop_mem (hchild b hb).2.laid.start_mem]
    exact hab

/-- The nodes in a field of the pass are views of what is in the field. -/
theorem inField_eq {v : View} {f : Field} (hf : f ≠ .name) :
    Tree.inField v f = (v.node.field? f.label).toList.map (View.mk v.source) := by
  change ((v.node.child? f).map (View.mk v.source)).toList = _
  rw [child?]
  cases v.node.field? f.label with
  | none => simp [hf]
  | some u => rfl

theorem Laid.field?_mem (h : Laid code c) {f : String} (hu : c.field? f = some u) :
    u ∈ c.children := by
  obtain ⟨front, back, hfields, -⟩ := List.lookup_eq_some_iff.1 hu
  have hmem : (f, u) ∈ c.fields := by
    rw [hfields]
    exact List.mem_append_right _ List.mem_cons_self
  exact h.field_mem _ hmem

/-- The sides of a brand check stand among the children as they are written. -/
theorem Laid.sides_sublist (h : Laid code c) (hk : c.kind = .brandCheck) :
    ((c.field? "left").toList ++ (c.field? "right").toList).Sublist c.children := by
  cases hl : c.field? "left" with
  | none =>
    cases hr : c.field? "right" with
    | none => exact List.nil_sublist _
    | some r => exact List.singleton_sublist.2 (h.field?_mem hr)
  | some l =>
    cases hr : c.field? "right" with
    | none => exact List.singleton_sublist.2 (h.field?_mem hl)
    | some r => exact h.sides hk l r hl hr

/-- The two sides of a brand check, as the pass sees them. -/
theorem inField_sides (v : View) : Tree.inField v .left ++ Tree.inField v .right
    = ((v.node.field? "left").toList ++ (v.node.field? "right").toList).map
        (View.mk v.source) := by
  rw [inField_eq (by decide), inField_eq (by decide), List.map_append]
  rfl

/-- **Placed trees are laid out** as a walk needs it. -/
theorem layout_over (code : Text) : Tree.Layout (Over code) where
  children h := h.inRow List.filter_sublist
  sides {v} h hk := by
    rw [inField_sides]
    exact h.inRow (h.2.laid.sides_sublist hk)
  children_mem {v} h := by
    change ∀ u ∈ (v.node.children.filter _).map _, _
    exact List.forall_mem_map.2 fun u hu => h.child (List.mem_filter.1 hu).1
  sides_mem {v} h hk := by
    rw [inField_sides]
    exact List.forall_mem_map.2 fun u hu => h.child ((h.2.laid.sides_sublist hk).subset hu)

/-! ## What a conversion replaces -/

/-- The edits of an occurrence, over the span of its concrete node. -/
def byteEdits (ν : Address × Text → Text) (o : Occurrence View) : List Edit :=
  o.meaning?.toList.map fun k =>
    ⟨o.node.node.info.start, o.node.node.info.stop, (o.edit (ν k)).newText⟩

/-- **What a conversion replaces**, counted in bytes: the occurrences that mean something, over the
spans of their concrete nodes.  Text without the sign is not walked. -/
def replacements (code : Text) (root : Cst) : List Edit :=
  if Conversion.sigil ∈ code then
    let roots := [View.mk (.ofText code) root]
    (Lexical.occurrencesAll [] [] 0 roots).flatMap
      (byteEdits (Lexical.numbering 0 (Lexical.declarationsAll [] 0 roots)))
  else []

/-- Replacements are ASCII. -/
theorem replacements_lt {e : Edit} (he : e ∈ replacements code root) {x : Char}
    (hx : x ∈ e.newText) : x.toNat < 128 := by
  rw [replacements] at he
  split at he
  · obtain ⟨o, -, he⟩ := List.mem_flatMap.1 he
    obtain ⟨k, -, rfl⟩ := List.mem_map.1 he
    rcases Occurrence.mem_newText_edit hx with rfl | hx
    · decide
    · exact ShortName.name_lt hx
  · exact absurd he List.not_mem_nil

/-- The edits of an occurrence, counted in bytes. -/
theorem map_inBytes_edits (ν : Address × Text → Text) {o : Occurrence View}
    (h : Over code o.node) : (o.edits ν).map (Edit.inBytes code) = byteEdits ν o := by
  rw [Occurrence.edits, byteEdits, List.map_map]
  refine List.map_congr_left fun k _ => ?_
  rw [Function.comp_apply, Edit.inBytes, Occurrence.edit, View.start_eq h, View.stop_eq h,
    h.2.laid.start_mem.byteLength_take, h.2.laid.stop_mem.byteLength_take]

/-- **The edits of a walk, counted in bytes**, are the replacements. -/
theorem map_inBytes_walk (h : Placed code root) (hsigil : Conversion.sigil ∈ code) :
    (({} : Walker).walk (View.mk (.ofText code) root)).edits.map (Edit.inBytes code)
      = replacements code root := by
  have hover : Over code (View.mk (.ofText code) root) := ⟨rfl, h⟩
  have hwalked : (({} : Walker).walk (View.mk (.ofText code) root)).edits
      = Lexical.walked 0 [View.mk (.ofText code) root] := rfl
  have hmem := (Lexical.mem_of_layout (layout_over code)).2 _ [] [] 0
    (List.forall_mem_singleton.2 hover)
  rw [hwalked, Lexical.walked_eq, replacements, if_pos hsigil, List.map_flatMap]
  exact List.flatMap_congr fun o ho => map_inBytes_edits _ (hmem o ho)

/-- The edits of a walk stand in order. -/
theorem inOrder_walk (h : Placed code root) : Edit.InOrder 0 code.length
    (({} : Walker).walk (View.mk (.ofText code) root)).edits := by
  have hover : Over code (View.mk (.ofText code) root) := ⟨rfl, h⟩
  have hedits := (Lexical.inOrder_visit (layout_over code)).1 _ [] 0 hover
  rw [View.start_eq hover, View.stop_eq hover] at hedits
  rw [Walk.walk_eq, Walker.after, List.nil_append]
  exact (hedits.of_le h.laid.start_mem.toOffset_mem.1).of_le_right h.laid.stop_mem.toOffset_mem.2

/-- The parser hands over the tree of the pass. -/
theorem goesOn_view {o : ConvertOptions} (hstrict : o.strict = true → root.fault? = none) :
    GoesOn (parser root) code o (View.mk (.ofText code) root) := ⟨rfl, hstrict⟩

/-- **Rewriting characters rewrites bytes.**  Over a placed tree a script is converted, and the
bytes of the outcome are the bytes of the script with ASCII text over the span of every concrete
node that the walk resolves.  The texts by which it resolves nodes are what their bytes say. -/
theorem encode_convert (h : Placed code root) :
    (∃ c, (∀ o : ConvertOptions, (o.strict = true → root.fault? = none) →
        (convert (parser root) code o).2 = .ok c) ∧
      c.edits.map (Edit.inBytes code) = replacements code root ∧
      Edit.InOrder 0 (Text.encode code).size (replacements code root) ∧
      (∀ e ∈ replacements code root, ∀ x ∈ e.newText, x.toNat < 128) ∧
      Text.encode c.code
        = Edit.spliceFrom (Text.encode code) 0 (replacements code root)) ∧
    ∀ u, Below root u →
      Text.decode? ((Text.encode code).extract u.info.start.toNat u.info.stop.toNat)
        = some (Tree.text (View.mk (.ofText code) u)) := by
  refine ⟨?_, fun u hu => (h.of_below hu).decode?_extract⟩
  have hascii : ∀ e ∈ replacements code root, ∀ x ∈ e.newText, x.toNat < 128 :=
    fun e he x hx => replacements_lt he hx
  by_cases hsigil : Conversion.sigil ∈ code
  · have horder := inOrder_walk h
    obtain ⟨out, hout⟩ := horder.exists_patch
    obtain ⟨c, hc, hcode, hedits⟩ :=
      Conversion.ofTree_of_patch hsigil horder.sorted_eq_self hout
    have hbytes := horder.inBytes code
    rw [map_inBytes_walk h hsigil] at hbytes
    refine ⟨c, fun o ho => convert_of_ofTree (goesOn_view ho) hc, ?_, ?_, hascii, ?_⟩
    · rw [hedits, map_inBytes_walk h hsigil]
    · simpa [Text.size_encode] using hbytes
    · rw [hcode, Edit.encode_patch horder.sorted_eq_self hout, map_inBytes_walk h hsigil]
  · have hnone : replacements code root = [] := if_neg hsigil
    have hsame := Conversion.ofTree_of_notMem (View.mk (.ofText code) root) hsigil
    refine ⟨_, fun o ho => convert_of_ofTree (goesOn_view ho) hsame, hnone.symm, ?_, hascii, ?_⟩
    · rw [hnone]
      exact Int.natCast_nonneg _
    · rw [hnone]
      exact (ByteArray.extract_zero_size).symm

/-- A node without children. -/
def leaf (type : String) (start stop : Int) : Cst :=
  .mk { type := type, start := start, stop := stop } [] []

/-- The tree of `/*😀*/class{#é=#é in o}`. -/
def astral : Cst :=
  let left := leaf privateNameType 18 21
  let op : Cst := .mk { type := "in", start := 22, stop := 24, named := false } [] []
  let right := leaf "identifier" 25 26
  let check : Cst := .mk { type := "binary_expression", start := 18, stop := 26 }
    [left, op, right] [("left", left), ("operator", op), ("right", right)]
  let key := leaf privateNameType 14 17
  let field : Cst := .mk { type := "field_definition", start := 14, stop := 26 }
    [key, check] [("property", key)]
  let body : Cst := .mk { type := "class_body", start := 13, stop := 27 } [field] []
  .mk { type := "class", start := 8, stop := 27 } [body] [("body", body)]

theorem placed_mk {i : CstInfo} {cs : List Cst} {fs : List (String × Cst)} :
    Placed code (.mk i cs fs) ↔ Laid code (.mk i cs fs) ∧ ∀ u ∈ cs, Placed code u :=
  ⟨fun h => ⟨h.laid, h.of_mem_children⟩, fun h => .node h.1 h.2⟩

theorem placed_astral : Placed "/*😀*/class\x7b#é=#é in o\x7d".toList astral := by
  have hb : ∀ b ∈ [(8 : Int), 13, 14, 17, 18, 21, 22, 24, 25, 26, 27],
      Text.Boundary "/*😀*/class\x7b#é=#é in o\x7d".toList b := by decide
  generalize "/*😀*/class\x7b#é=#é in o\x7d".toList = code at hb
  simp only [List.forall_mem_cons] at hb
  simp [astral, leaf, placed_mk, laid_iff, hb, info, children, fields, field?, List.lookup_cons,
    kind, classTypes, memberTypes, privateNameType]

theorem replacements_astral :
    replacements "/*😀*/class\x7b#é=#é in o\x7d".toList astral
      = [⟨14, 17, "$a".toList⟩, ⟨18, 21, "'$a'".toList⟩] := by
  rw [replacements, if_pos (by decide)]
  generalize hs : Source.ofText "/*😀*/class\x7b#é=#é in o\x7d".toList = s
  simp [astral, leaf, Lexical.declarationsAll, Lexical.declarations, Lexical.occurrencesAll,
    Lexical.occurrences, Lexical.declared, Occurrence.meaning?, Occurrence.home?, Occurrence.edit,
    Tree.kind, Tree.children, Tree.inField, Tree.child?, Tree.text, View.children, info, children,
    fields, field?, child?, List.lookup_cons, kind, classTypes, memberTypes, privateNameType,
    Field.label, byteEdits]
  -- what is left are the texts of the three nodes
  subst hs
  refine ⟨?_, ?_, ?_⟩ <;> with_unfolding_all rfl

theorem encode_convert_astral :
    Placed "/*😀*/class\x7b#é=#é in o\x7d".toList astral ∧
      ∃ c, (convert (parser astral) "/*😀*/class\x7b#é=#é in o\x7d".toList
          { filename := "a.js", strict := true }).2 = .ok c ∧
        Text.encode c.code = Text.encode "/*😀*/class\x7b$a='$a' in o\x7d".toList := by
  obtain ⟨⟨c, hc, -, -, -, hbytes⟩, -⟩ := encode_convert placed_astral
  have hspliced : Edit.spliceFrom (Text.encode "/*😀*/class\x7b#é=#é in o\x7d".toList) 0
      [⟨14, 17, "$a".toList⟩, ⟨18, 21, "'$a'".toList⟩]
      = Text.encode "/*😀*/class\x7b$a='$a' in o\x7d".toList := rfl
  rw [replacements_astral, hspliced] at hbytes
  exact ⟨placed_astral, c, hc _ fun _ => rfl, hbytes⟩

end Cst

end Sigil
