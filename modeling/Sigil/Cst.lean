import Sigil.Reading
import Sigil.Text.Units

/-!
# Cst — concrete syntax trees in byte offsets, seen as trees of the pass

A concrete tree has every token of a script, its types named by a grammar and its spans counted in
UTF-8 bytes.  `View` is such a tree together with the text it covers; it is a `Tree` in character
offsets, made of the named nodes only.  A tree marks the nodes that are errors, stand for missing
tokens, or hold such a node somewhere below.
-/

namespace Sigil

/-- What a concrete node says of itself. -/
structure CstInfo where
  /-- The node's type. -/
  type : String
  /-- Byte offset of its first character. -/
  start : Int
  /-- Byte offset just past its last character. -/
  stop : Int
  /-- Named, and not a bare token. -/
  named : Bool := true
  /-- Text that fits no rule. -/
  isError : Bool := false
  /-- A token that had to be made up. -/
  isMissing : Bool := false
  /-- An error or a made-up token is here or below. -/
  hasError : Bool := false
  /-- Row of the first character, counted from 0. -/
  row : Int := 0
  /-- Column of the first character in bytes, counted from 0. -/
  column : Int := 0
deriving DecidableEq, Repr, Inhabited

/-- A concrete syntax tree. -/
inductive Cst where
  /-- A node with children and with nodes in named fields. -/
  | mk (info : CstInfo) (children : List Cst) (fields : List (String × Cst))

namespace Cst

/-- What a node says of itself. -/
def info : Cst → CstInfo
  | .mk i .. => i

/-- All children, tokens included. -/
def children : Cst → List Cst
  | .mk _ cs _ => cs

/-- The nodes in named fields. -/
def fields : Cst → List (String × Cst)
  | .mk _ _ fs => fs

/-- The node in a field, if the field is there. -/
def field? (c : Cst) (label : String) : Option Cst := c.fields.lookup label

theorem total_sizeOf_le : ∀ cs : List Cst, total sizeOf cs ≤ sizeOf cs
  | [] => by simp
  | c :: cs => by
    have := total_sizeOf_le cs
    simp only [total_cons, List.cons.sizeOf_spec]
    omega

theorem total_sizeOf_children_lt (c : Cst) : total sizeOf c.children < sizeOf c := by
  cases c with
  | mk i cs fs =>
    have := total_sizeOf_le cs
    simp only [children, mk.sizeOf_spec]
    omega

theorem sizeOf_lookup_lt {f : String} {u : Cst} :
    ∀ {fs : List (String × Cst)}, fs.lookup f = some u → sizeOf u < sizeOf fs
  | [], h => by simp at h
  | (g, n) :: fs, h => by
    rw [List.lookup_cons] at h
    split at h
    · injection h with h
      subst h
      simp only [List.cons.sizeOf_spec, Prod.mk.sizeOf_spec]
      omega
    · have := sizeOf_lookup_lt h
      simp only [List.cons.sizeOf_spec]
      omega

theorem sizeOf_field?_lt {c u : Cst} {f : String} (h : c.field? f = some u) :
    sizeOf u < sizeOf c := by
  cases c with
  | mk i cs fs =>
    have : sizeOf u < sizeOf fs := sizeOf_lookup_lt h
    simp only [mk.sizeOf_spec]
    omega

/-! ## Faults -/

/-- An error, or a token that had to be made up. -/
def faulty (c : Cst) : Bool := c.info.isError || c.info.isMissing

/-- The first faulty node in a list of nodes still to be searched.  Below a node that is not marked
there is nothing to find. -/
def firstFaulty (todo : List Cst) : Option Cst :=
  match todo with
  | [] => none
  | c :: rest =>
    if c.faulty then some c
    else if c.info.hasError then firstFaulty (c.children ++ rest)
    else firstFaulty rest
termination_by total sizeOf todo
decreasing_by
  · have := total_sizeOf_children_lt c
    rw [total_append, total_cons]
    omega
  · have := total_sizeOf_children_lt c
    rw [total_cons]
    omega

/-- The place of the first fault of a tree whose root is marked. -/
def fault? (root : Cst) : Option Place :=
  if root.info.hasError then
    match firstFaulty [root] with
    | some c => some ⟨c.info.row + 1, c.info.column⟩
    | none => some ⟨1, 0⟩
  else none

/-! ## The tree of the pass -/

/-- Types of nodes that are classes. -/
def classTypes : List String := ["class_declaration", "abstract_class_declaration", "class"]

/-- Types of nodes that are members of a class. -/
def memberTypes : List String :=
  ["field_definition", "public_field_definition", "method_definition", "method_signature",
    "abstract_method_signature"]

/-- The type of private names. -/
def privateNameType : String := "private_property_identifier"

/-- The kind of a node. -/
def kind (c : Cst) : Kind :=
  let type := c.info.type
  if classTypes.contains type then .classDef
  else if memberTypes.contains type then .member
  else if type = privateNameType then .privateName
  else if type = "binary_expression" then
    match c.field? "operator", c.field? "left" with
    | some op, some left =>
      if op.info.type = "in" ∧ left.info.type = privateNameType then .brandCheck else .other
    | _, _ => .other
  else .other

/-- The node in one of the pass's fields.  The key of a field definition counts as its name. -/
def child? (c : Cst) (f : Field) : Option Cst :=
  match c.field? f.label with
  | some u => some u
  | none => if f = .name then c.field? "property" else none

theorem sizeOf_child?_lt {c u : Cst} {f : Field} (h : c.child? f = some u) :
    sizeOf u < sizeOf c := by
  unfold child? at h
  split at h
  · next v hv =>
    injection h with h
    exact h ▸ sizeOf_field?_lt hv
  · split at h
    · exact sizeOf_field?_lt h
    · cases h

/-- A text and the index of its bytes. -/
structure Source where
  /-- The text. -/
  code : Text
  /-- The index of its bytes. -/
  index : Text.ByteIndex

/-- The source of a text. -/
def Source.ofText (code : Text) : Source := ⟨code, .ofText code⟩

/-- A concrete node over a source. -/
structure View where
  /-- The text around the node. -/
  source : Source
  /-- The node. -/
  node : Cst

namespace View

/-- Offset of the node's first character. -/
def start (v : View) : Int := v.source.index.toOffset v.node.info.start

/-- Offset just past the node's last character. -/
def stop (v : View) : Int := v.source.index.toOffset v.node.info.stop

/-- The named children. -/
def children (v : View) : List View :=
  (v.node.children.filter (·.info.named)).map (View.mk v.source)

theorem total_children_lt (v : View) :
    total (fun u : View => sizeOf u.node) (children v) < sizeOf v.node := by
  rw [children, total_map]
  exact Nat.lt_of_le_of_lt (total_filter_le sizeOf _ _) (total_sizeOf_children_lt v.node)

instance : Tree View where
  kind v := v.node.kind
  start := start
  stop := stop
  text v := v.source.code.slice v.start v.stop
  children := children
  child? v f := (v.node.child? f).map (View.mk v.source)
  finite := ⟨fun v => sizeOf v.node, total_children_lt, fun v f u h => by
    obtain ⟨c, hc, rfl⟩ := Option.map_eq_some_iff.1 h
    exact sizeOf_child?_lt hc⟩

end View

/-- A parser that hands over a given tree. -/
def parser (root : Cst) : Parser View :=
  fun _ code => ⟨⟨.ofText code, root⟩, root.fault?⟩

end Cst

/-! ## Listing a tree -/

/-- The nodes of a tree, each before its children. -/
def Tree.preorder {τ : Type} [Tree τ] (todo : List τ) : List τ :=
  match todo with
  | [] => []
  | t :: rest => t :: preorder (Tree.children t ++ rest)
termination_by total Tree.size todo
decreasing_by
  have := Tree.size_children t
  rw [total_append, total_cons]
  omega

end Sigil
