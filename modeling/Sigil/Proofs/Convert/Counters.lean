import Mathlib.Data.Finset.Card
import Sigil.Cst
import Sigil.Proofs.Convert.Signs
import Sigil.Proofs.Walk.SecondWalk

/-!
# Proofs/Convert/Counters — the counters of a conversion are those of its tree

    classes that declare a name   ≤   names they declare   =   names written   ≤   edits

The walk counts what it opens and what it hands out.  Where it comes to every node of the tree just
once, these are the classes and the declarations of the tree (`visit_counts`), and every declaration
is written somewhere, at least where it stands (`exists_meaning`).  So a conversion that makes no
edit had nothing to count, and may say so without a look at its walk.
-/

namespace Sigil

namespace Tree

variable {τ : Type} [Tree τ]

/-! ## The nodes of a tree -/

/-- A tree every node of which has a property. -/
inductive Throughout (P : τ → Prop) : τ → Prop where
  | node {t : τ} (here : P t) (below : ∀ c ∈ children t, Throughout P c) : Throughout P t

theorem Throughout.here {P : τ → Prop} {t : τ} (h : Throughout P t) : P t := by
  cases h with
  | node here _ => exact here

theorem Throughout.of_mem_children {P : τ → Prop} {t : τ} (h : Throughout P t) :
    ∀ c ∈ children t, Throughout P c := by
  cases h with
  | node _ below => exact below

theorem throughout_mk {P : Node Kind → Prop} {k : Kind} {s e : Int} {x : Text}
    {cs : List (Node Kind)} {fs : List (Field × Node Kind)} : Throughout P (Node.mk k s e x cs fs) ↔
      P (Node.mk k s e x cs fs) ∧ ∀ c ∈ cs, Throughout P c :=
  ⟨fun h => ⟨h.here, h.of_mem_children⟩, fun h => .node h.1 h.2⟩

theorem preorder_nil : preorder ([] : List τ) = [] := by rw [preorder]

theorem preorder_append (ts us : List τ) : preorder (ts ++ us) = preorder ts ++ preorder us := by
  fun_induction preorder ts with
  | case1 => rfl
  | case2 t ts ih => rw [List.cons_append, preorder, ← List.append_assoc, ih, List.cons_append]

/-- **The nodes of trees side by side** are those of the trees. -/
theorem preorder_eq_flatMap (ts : List τ) :
    preorder ts = ts.flatMap fun t => t :: preorder (children t) := by
  induction ts with
  | nil => exact preorder_nil
  | cons t ts ih => rw [preorder, preorder_append, ih, List.flatMap_cons, List.cons_append]

/-- The classes in some trees, in document order. -/
def classes (ts : List τ) : List τ := (preorder ts).filter fun t => kind t = .classDef

theorem classes_cons (t : τ) (ts : List τ) : classes (t :: ts) = classes [t] ++ classes ts := by
  rw [classes, classes, classes, ← List.filter_append, ← preorder_append, List.singleton_append]

theorem classes_of_class {t : τ} (h : kind t = .classDef) :
    classes [t] = t :: classes (children t) := by
  rw [classes, preorder, List.append_nil, List.filter_cons_of_pos (by simpa using h), classes]

theorem classes_of_ne {t : τ} (h : kind t ≠ .classDef) : classes [t] = classes (children t) := by
  rw [classes, preorder, List.append_nil, List.filter_cons_of_neg (by simpa using h), classes]

theorem classes_nil : classes ([] : List τ) = [] := by
  rw [classes, preorder_nil, List.filter_nil]

theorem classes_leaf {t : τ} (h : kind t ≠ .classDef) (hleaf : children t = []) :
    classes [t] = [] := by
  rw [classes_of_ne h, hleaf, classes_nil]

theorem perm_classes {ts us : List τ} (h : ts.Perm us) : (classes ts).Perm (classes us) := by
  rw [Tree.classes, Tree.classes, preorder_eq_flatMap, preorder_eq_flatMap]
  exact (h.flatMap_right _).filter _

/-- **A node of a script's tree** the parts of which a walk comes to just once: a private name is a
leaf and stands in the script with its sign, the body of a class and the name of a member are
children, and the children of a brand check are its sides. -/
@[mk_iff]
structure Written (code : Text) (t : τ) : Prop where
  text : kind t = .privateName →
    text t = code.slice (start t) (stop t) ∧ (text t).head? = some Conversion.sigil
  leaf : kind t = .privateName → children t = []
  body : kind t = .classDef → ∀ b, child? t .body = some b → b ∈ children t ∧ kind b = .other
  name : kind t = .member → ∀ x, child? t .name = some x → x ∈ children t
  left : kind t = .brandCheck → ∃ l, child? t .left = some l ∧ kind l = .privateName
  sides : kind t = .brandCheck → (children t).Perm (inField t .left ++ inField t .right)

variable {code : Text} {t : τ}

/-- A private name brings its sign into the script. -/
theorem Written.sigil_mem (h : Written code t) (hk : kind t = .privateName) :
    Conversion.sigil ∈ code := by
  obtain ⟨htext, hhead⟩ := h.text hk
  rw [htext] at hhead
  exact List.mem_of_mem_take (List.mem_of_mem_drop (List.mem_of_mem_head? hhead))

/-- The right side of a brand check is a child. -/
theorem Written.right_mem (h : Written code t) (hk : kind t = .brandCheck) :
    ∀ r ∈ inField t .right, r ∈ children t := fun _ hr =>
  (h.sides hk).mem_iff.2 (List.mem_append_right _ hr)

/-- The classes in a brand check are on its right. -/
theorem Throughout.classes_brandCheck (h : Throughout (Written code) t)
    (hk : kind t = .brandCheck) : (classes [t]).Perm (classes (inField t .right)) := by
  obtain ⟨l, hleft, hl⟩ := h.here.left hk
  have hsides := h.here.sides hk
  rw [inField, hleft, Option.toList_some, List.singleton_append] at hsides
  have hleaf : children l = [] :=
    (h.of_mem_children l (hsides.mem_iff.2 List.mem_cons_self)).here.leaf hl
  have hnone : classes [l] = [] := classes_leaf (by rw [hl]; decide) hleaf
  have hperm := perm_classes hsides
  rw [classes_cons, hnone, List.nil_append, ← classes_of_ne (by rw [hk]; decide)] at hperm
  exact hperm

end Tree

/-! ## What a walk counts -/

namespace Lexical

variable {τ : Type} [Tree τ] {code : Text}

/-- How many names the classes in some trees declare, each class for itself. -/
def namesIn (ts : List τ) : Nat := ((Tree.classes ts).map fun c => (declared c).toFinset.card).sum

/-- How many classes in some trees declare a name. -/
def declaringIn (ts : List τ) : Nat := ((Tree.classes ts).filter fun c => declared c ≠ []).length

theorem length_eraseDups (names : List Text) : names.eraseDups.length = names.toFinset.card := by
  rw [← List.toFinset_card_of_nodup (nodup_eraseDups names)]
  exact congrArg Finset.card (Finset.ext fun x => by simp)

theorem namesIn_cons (t : τ) (ts : List τ) : namesIn (t :: ts) = namesIn [t] + namesIn ts := by
  rw [namesIn, Tree.classes_cons, List.map_append, List.sum_append, namesIn, namesIn]

theorem declaringIn_cons (t : τ) (ts : List τ) :
    declaringIn (t :: ts) = declaringIn [t] + declaringIn ts := by
  rw [declaringIn, Tree.classes_cons, List.filter_append, List.length_append, declaringIn,
    declaringIn]

theorem isEmpty_freshTable (n : Nat) (names : List Text) :
    (freshTable n names).isEmpty = decide (names = []) := by
  cases names with
  | nil => rfl
  | cons x names => rw [freshTable, List.eraseDups_cons]; rfl

/-- A part of a tree was counted right: the counter went past the names declared in it, and the
classes are those that declare one. -/
structure Counted (n : Nat) (ts : List τ) (f : Found) : Prop where
  count : f.count = n + namesIn ts
  classes : f.classes = declaringIn ts

theorem Counted.of_perm {n : Nat} {ts us : List τ} {f : Found}
    (h : (Tree.classes ts).Perm (Tree.classes us)) (hf : Counted n us f) : Counted n ts f := by
  refine ⟨hf.count.trans (congrArg (n + ·) ?_), hf.classes.trans ?_⟩
  · exact (h.symm.map _).sum_eq
  · exact (h.symm.filter _).length_eq

theorem Counted.of_no_class {n : Nat} {ts : List τ} (h : Tree.classes ts = []) (es : List Edit) :
    Counted n ts ⟨es, n, 0⟩ := by
  refine ⟨?_, ?_⟩
  · rw [namesIn, h]
    rfl
  · rw [declaringIn, h]
    rfl

theorem Counted.cons {n : Nat} {t : τ} {ts : List τ} {first rest : Found}
    (hfirst : Counted n [t] first) (hrest : Counted first.count ts rest) :
    Counted n (t :: ts)
      ⟨first.edits ++ rest.edits, rest.count, first.classes + rest.classes⟩ := by
  refine ⟨?_, ?_⟩
  · rw [hrest.count, hfirst.count, namesIn_cons t ts, Nat.add_assoc]
  · rw [hrest.classes, hfirst.classes, declaringIn_cons t ts]

/-- A class counts its own names in front of those below it, and itself if it has some. -/
theorem Counted.of_class {n : Nat} {t : τ} (hk : Tree.kind t = .classDef) {below : Found}
    (h : Counted (n + (freshTable n (declared t)).length) (Tree.children t) below) :
    Counted n [t] { below with
      classes := (if (freshTable n (declared t)).isEmpty then 0 else 1) + below.classes } := by
  have hclasses := Tree.classes_of_class hk
  refine ⟨?_, ?_⟩
  · simp only [h.count]
    rw [namesIn, namesIn, hclasses, List.map_cons, List.sum_cons, length_freshTable,
      length_eraseDups, Nat.add_assoc]
  · simp only [h.classes]
    rw [declaringIn, declaringIn, hclasses, isEmpty_freshTable, List.filter_cons]
    by_cases hnone : declared t = []
    · simp [hnone]
    · simp [hnone, Nat.add_comm]

/-- **The recursion counts the classes and the names of the tree.** -/
theorem visit_counts :
    (∀ (t : τ) (env : List ScopeTable) (n : Nat), Tree.Throughout (Tree.Written code) t →
      Counted n [t] (visit env n t)) ∧
    ∀ (ts : List τ) (env : List ScopeTable) (n : Nat),
      (∀ t ∈ ts, Tree.Throughout (Tree.Written code) t) → Counted n ts (visitAll env n ts) := by
  refine Tree.induct (fun t hchildren hfields => ?_) ?_ (fun t ts ht hts => ?_)
  · intro env n h
    rw [visit]
    cases hk : Tree.kind t with
    | classDef => exact .of_class hk (hchildren _ _ h.of_mem_children)
    | brandCheck =>
      have hright := hfields .right env n fun r hr => h.of_mem_children r (h.here.right_mem hk r hr)
      have hcounted := hright.of_perm (h.classes_brandCheck hk)
      exact ⟨hcounted.count, hcounted.classes⟩
    | privateName => exact .of_no_class (Tree.classes_leaf (by rw [hk]; decide) (h.here.leaf hk)) _
    | member | other =>
      refine (hchildren env n h.of_mem_children).of_perm (.of_eq (Tree.classes_of_ne ?_))
      rw [hk]
      decide
  · intro env n _
    rw [visitAll]
    exact .of_no_class Tree.classes_nil []
  · intro env n h
    obtain ⟨hhead, htail⟩ := List.forall_mem_cons.1 h
    rw [visitAll]
    exact .cons (ht env n hhead) (hts env (visit env n t).count htail)

/-! ## Every declaration is written -/

/-- The names that a class declares stand below it, and mean it. -/
theorem exists_meaning_of_class {t : τ} (h : Tree.Throughout (Tree.Written code) t)
    (hk : Tree.kind t = .classDef) (around : List (Address × τ)) (a : Address) {x : Text}
    (hx : x ∈ declared t) :
    ∃ o ∈ occurrencesAll ((a, t) :: around) a 0 (Tree.children t), o.meaning? = some (a, x) := by
  obtain ⟨b, hb, m, hm, hmember, y, hy, hprivate, rfl⟩ := mem_declared.1 hx
  obtain ⟨hbmem, hother⟩ := h.here.body hk b hb
  have hymem := ((h.of_mem_children b hbmem).of_mem_children m hm).here.name hmember y hy
  -- the walk comes to the body, to the member in it and to the name of the member
  obtain ⟨i, hi⟩ := Renamed.exists_mem_occurrencesAll hbmem ((a, t) :: around) a 0
  obtain ⟨j, hj⟩ := Renamed.exists_mem_occurrencesAll hm ((a, t) :: around) i 0
  obtain ⟨k, hk⟩ := Renamed.exists_mem_occurrencesAll hymem ((a, t) :: around) j 0
  simp only [occurrences, hother] at hi
  simp only [occurrences, hmember] at hj
  simp only [occurrences, hprivate] at hk
  refine ⟨⟨y, false, (a, t) :: around⟩,
    hi _ (hj _ (hk _ (List.mem_singleton_self _))), ?_⟩
  rw [Occurrence.meaning?, Occurrence.home?,
    List.find?_cons_of_pos (by simpa using hx), Option.map_some]

/-- **Whatever is declared in a tree is meant by an occurrence there.** -/
theorem exists_meaning :
    (∀ (t : τ) (around : List (Address × τ)) (a : Address),
      Tree.Throughout (Tree.Written code) t → ∀ k ∈ declarations a t,
        ∃ o ∈ occurrences around a t, o.meaning? = some k) ∧
    ∀ (ts : List τ) (around : List (Address × τ)) (a : Address) (i : Nat),
      (∀ t ∈ ts, Tree.Throughout (Tree.Written code) t) → ∀ k ∈ declarationsAll a i ts,
        ∃ o ∈ occurrencesAll around a i ts, o.meaning? = some k := by
  refine Tree.induct (fun t hchildren hfields => ?_) ?_ (fun t ts ht hts => ?_)
  · intro around a h k hmem
    rw [declarations] at hmem
    rw [occurrences]
    cases hk : Tree.kind t with
    | classDef =>
      simp only [hk, List.mem_append, List.mem_map, List.mem_eraseDups] at hmem ⊢
      rcases hmem with ⟨x, hx, rfl⟩ | hmem
      · exact exists_meaning_of_class h hk around a hx
      · exact hchildren _ a 0 h.of_mem_children k hmem
    | brandCheck =>
      simp only [hk] at hmem ⊢
      obtain ⟨o, ho, hmeans⟩ := hfields .right around a 0
        (fun r hr => h.of_mem_children r (h.here.right_mem hk r hr)) k hmem
      exact ⟨o, List.mem_append_right _ ho, hmeans⟩
    | privateName =>
      simp only [hk] at hmem
      exact absurd hmem List.not_mem_nil
    | member | other =>
      simp only [hk] at hmem ⊢
      exact hchildren around a 0 h.of_mem_children k hmem
  · intro around a i _ k hmem
    rw [declarationsAll] at hmem
    exact absurd hmem List.not_mem_nil
  · intro around a i h k hmem
    obtain ⟨hhead, htail⟩ := List.forall_mem_cons.1 h
    rw [declarationsAll, List.mem_append] at hmem
    rw [occurrencesAll]
    rcases hmem with hmem | hmem
    · obtain ⟨o, ho, hmeans⟩ := ht around (i :: a) hhead k hmem
      exact ⟨o, List.mem_append_left _ ho, hmeans⟩
    · obtain ⟨o, ho, hmeans⟩ := hts around a (i + 1) htail k hmem
      exact ⟨o, List.mem_append_right _ ho, hmeans⟩

/-- The names that a walk writes are those of the declarations. -/
theorem toFinset_bareName_walked {roots : List τ} (n : Nat)
    (h : ∀ t ∈ roots, Tree.Throughout (Tree.Written code) t) :
    ((walked n roots).map Edit.bareName).toFinset
      = ((declarationsAll [] 0 roots).map (numbering n (declarationsAll [] 0 roots))).toFinset := by
  refine Finset.ext fun name => ?_
  rw [walked_eq]
  simp only [List.mem_toFinset, List.mem_map, List.mem_flatMap, Occurrence.edits,
    Option.mem_toList]
  constructor
  · rintro ⟨e, ⟨o, ho, k, hk, rfl⟩, rfl⟩
    exact ⟨k, meaning_mem_declarationsAll ho hk, (bareName_edit o _).symm⟩
  · rintro ⟨k, hk, rfl⟩
    obtain ⟨o, ho, hmeans⟩ := exists_meaning.2 roots [] [] 0 h k hk
    exact ⟨_, ⟨o, ho, k, hmeans, rfl⟩, bareName_edit o _⟩

end Lexical

/-! ## The counters -/

namespace Walk

open Lexical

variable {τ : Type} [Tree τ] {code : Text} {root : τ}

/-- **The counters of a walk**: the classes that declare a name, and the names they declare, which
are just the names that it writes. -/
theorem counters_walk (h : Tree.Throughout (Tree.Written code) root) :
    (({} : Walker).walk root).classCount = declaringIn [root] ∧
      (({} : Walker).walk root).fieldCount = namesIn [root] ∧
      (({} : Walker).walk root).fieldCount
        = ((({} : Walker).walk root).edits.map Edit.bareName).toFinset.card := by
  have hcounted := visit_counts.1 root [] 0 h
  have hfields : (({} : Walker).walk root).fieldCount = namesIn [root] := by
    rw [walk_eq, Walker.fieldCount, Walker.after]
    exact hcounted.count.trans (Nat.zero_add _)
  refine ⟨?_, hfields, ?_⟩
  · rw [walk_eq, Walker.after]
    exact (Nat.zero_add _).trans hcounted.classes
  · have hnodup : ((declarationsAll [] 0 [root]).map
        (numbering 0 (declarationsAll [] 0 [root]))).Nodup :=
      (nodup_declarations.2 [root] [] 0).map_on fun k hk l _ hkl => (numbering_inj hk).1 hkl
    have hrenames := (visit_eq_of_numbered (numbering 0 (declarationsAll [] 0 [root]))).2 [root]
      [] [] 0 0 (numbered_numbering 0 (nodup_declarations.2 [root] [] 0))
    have hlength : (declarationsAll [] 0 [root]).length = namesIn [root] := by
      have hall := (visit_counts.2 [root] [] 0 (List.forall_mem_singleton.2 h)).count
      have := hrenames.count
      rw [List.map_nil] at this
      omega
    have hwritten := toFinset_bareName_walked 0 (List.forall_mem_singleton.2 h)
    have hwalked : (({} : Walker).walk root).edits = walked 0 [root] := rfl
    rw [hfields, hwalked, hwritten, List.toFinset_card_of_nodup hnodup, List.length_map, hlength]

/-- A script without the sign has no private name, and a walk of its tree finds no edit. -/
theorem walk_of_notMem (h : Tree.Throughout (Tree.Written code) root)
    (hsigil : Conversion.sigil ∉ code) : (({} : Walker).walk root).edits = [] := by
  have hundeclared : Undeclared (Tree.Throughout (Tree.Written code) : τ → Prop) := {
    children_mem := fun h => h.of_mem_children
    right_mem := fun h hk r hr => h.of_mem_children r (h.here.right_mem hk r hr)
    declared_eq_nil := fun {c} hc hk => List.eq_nil_iff_forall_not_mem.2 fun x hx => by
      obtain ⟨b, hb, m, hm, hmember, y, hy, hprivate, -⟩ := mem_declared.1 hx
      have hbelow := (hc.of_mem_children b (hc.here.body hk b hb).1).of_mem_children m hm
      have hname := hbelow.of_mem_children y (hbelow.here.name hmember y hy)
      exact hsigil (hname.here.sigil_mem hprivate) }
  rw [walk_eq, (visit_of_undeclared hundeclared).1 root [] 0 h
    fun _ htable => absurd htable List.not_mem_nil]
  rfl

end Walk

/-- No more classes declare a name than names are declared. -/
theorem Lexical.declaringIn_le {τ : Type} [Tree τ] (ts : List τ) :
    declaringIn ts ≤ namesIn ts := by
  rw [declaringIn, namesIn]
  induction Tree.classes ts with
  | nil => exact Nat.le_refl 0
  | cons c cs ih =>
    rw [List.map_cons, List.sum_cons]
    by_cases hnone : declared c = []
    · rw [List.filter_cons_of_neg (by simpa using hnone)]
      exact Nat.le_trans ih (Nat.le_add_left _ _)
    · have hpos : 0 < (declared c).toFinset.card := by simpa [Finset.card_pos] using hnone
      rw [List.filter_cons_of_pos (by simpa using hnone), List.length_cons, Nat.add_comm]
      exact Nat.add_le_add hpos ih

namespace Conversion

open Lexical

variable {τ : Type} [Tree τ] {code : Text} {c : Conversion}

/-- **What a conversion reports is what its walk counts**, also where it does not look at the walk:
without the sign, or without an edit, there was nothing to count. -/
theorem counters_ofTree {root : τ} (htree : Tree.Throughout (Tree.Written code) root)
    (h : ofTree code root = .ok c) :
    c.edits.Perm (({} : Walker).walk root).edits ∧
      c.classCount = (({} : Walker).walk root).classCount ∧
      c.fieldCount = (({} : Walker).walk root).fieldCount ∧ c.editCount = c.edits.length := by
  obtain ⟨hclasses, hfields, hwritten⟩ := Walk.counters_walk htree
  have hzero : (({} : Walker).walk root).edits = [] →
      (({} : Walker).walk root).classCount = 0 ∧ (({} : Walker).walk root).fieldCount = 0 := by
    intro hnone
    rw [hnone] at hwritten
    have hle := declaringIn_le [root]
    rw [← hclasses, ← hfields, hwritten] at hle
    exact ⟨Nat.le_zero.1 hle, hwritten⟩
  have hbare : (({} : Walker).walk root).edits = [] →
      c = { code := code } → c.edits.Perm (({} : Walker).walk root).edits ∧
        c.classCount = (({} : Walker).walk root).classCount ∧
        c.fieldCount = (({} : Walker).walk root).fieldCount ∧ c.editCount = c.edits.length := by
    rintro hnone rfl
    obtain ⟨hc, hf⟩ := hzero hnone
    rw [hnone, hc, hf]
    exact ⟨.refl _, rfl, rfl, rfl⟩
  rw [ofTree] at h
  split at h
  · next hsigil =>
    exact hbare (Walk.walk_of_notMem htree (by simpa using hsigil)) (Except.ok.inj h).symm
  simp only at h
  split at h
  · next hnone => exact hbare (List.isEmpty_iff.1 hnone) (Except.ok.inj h).symm
  split at h
  · cases h
  obtain rfl := Except.ok.inj h
  exact ⟨List.mergeSort_perm _ _, rfl, rfl, rfl⟩

/-- **The reported counters are true on every path.**  A conversion that ends, with or without a
look at the tree, reports how many classes of the tree declare a private name, how many names they
declare, each class for itself, and how many edits it made.  The names declared are just as many as
the names it wrote; so classes are no more than names, and names no more than edits.  A walk of the
tree counts the same. -/
theorem counters_of_convert {parse : Parser τ} {o : ConvertOptions}
    (htree : Tree.Throughout (Tree.Written code) (parse o.language code).root)
    (h : (convert parse code o).2 = .ok c) :
    c.classCount = declaringIn [(parse o.language code).root] ∧
      c.fieldCount = namesIn [(parse o.language code).root] ∧
      c.fieldCount = (c.edits.map Edit.bareName).toFinset.card ∧
      c.editCount = c.edits.length ∧
      c.classCount ≤ c.fieldCount ∧ c.fieldCount ≤ c.editCount ∧
      c.edits.Perm (({} : Walker).walk (parse o.language code).root).edits ∧
      c.classCount = (({} : Walker).walk (parse o.language code).root).classCount ∧
      c.fieldCount = (({} : Walker).walk (parse o.language code).root).fieldCount := by
  obtain ⟨hperm, hclassCount, hfieldCount, hedits⟩ := counters_ofTree htree (ofTree_of_convert h)
  obtain ⟨hclasses, hfields, hwritten⟩ := Walk.counters_walk htree
  have hnames : c.fieldCount = (c.edits.map Edit.bareName).toFinset.card := by
    rw [hfieldCount, hwritten, List.toFinset_eq_of_perm _ _ (hperm.map Edit.bareName)]
  have hclass := hclassCount.trans hclasses
  have hfield := hfieldCount.trans hfields
  refine ⟨hclass, hfield, hnames, hedits, ?_, ?_, hperm, hclassCount, hfieldCount⟩
  · rw [hclass, hfield]
    exact declaringIn_le _
  · rw [hnames, hedits, ← List.length_map Edit.bareName]
    exact List.toFinset_card_le _

theorem written_nested : Tree.Throughout (Tree.Written nestedText) Tree.nested := by
  have hright : (Field.right == Field.left) = false := rfl
  have hx : nestedText.slice 6 8 = ['#', 'x'] := by decide
  have hx' : nestedText.slice 9 11 = ['#', 'x'] := by decide
  have hy : nestedText.slice 21 23 = ['#', 'y'] := by decide
  simp [Tree.nested, Tree.throughout_mk, Tree.written_iff, Tree.children, Tree.start, Tree.stop,
    Tree.kind, Tree.child?, Tree.text, Tree.inField, Node.children, Node.start, Node.stop,
    Node.kind, Node.child?, Node.text, Node.fields, List.lookup_cons, hright, hx, hx', hy, sigil]

theorem counters_of_convert_nested :
    ∃ c, (convert (fun _ _ => ⟨Tree.nested, none⟩) nestedText { filename := "a.js" }).2 = .ok c ∧
      c.editCount = 3 ∧ c.classCount = declaringIn [Tree.nested] ∧
      c.fieldCount = namesIn [Tree.nested] ∧ c.classCount = 2 ∧ c.fieldCount = 2 := by
  have hconvert : (convert (fun _ _ => ⟨Tree.nested, none⟩) nestedText
      { filename := "a.js" }).2 = .ok {
        code := "class\x7b$a='$a' in class\x7b$b\x7d\x7d".toList
        classCount := 2
        fieldCount := 2
        editCount := 3
        edits := [⟨6, 8, "$a".toList⟩, ⟨9, 11, "'$a'".toList⟩, ⟨21, 23, "$b".toList⟩] } :=
    convert_of_ofTree ⟨rfl, fun _ => rfl⟩ (ofTree_nested (by decide) rfl)
  obtain ⟨hclass, hfield, -⟩ := counters_of_convert written_nested hconvert
  exact ⟨_, hconvert, rfl, hclass, hfield, rfl, rfl⟩

end Conversion

end Sigil
