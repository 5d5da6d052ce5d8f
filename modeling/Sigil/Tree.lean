import Sigil.Text
import Sigil.Total

/-!
# Tree — what the renaming pass needs to know of a syntax tree

The pass never looks at a concrete grammar.  It walks any type of nodes that answers a few
questions: a node's kind, its span, its text, its children, and the node found in one of four
fields.  That is the class `Tree`, whose last field says that nodes are finite: they can be given
sizes so that the sizes of a node's children add up to less than its own, and a node found in a
field is smaller.  `Node` is the plain inductive instance.
-/

namespace Sigil

/-- The kinds of nodes the pass tells apart. -/
inductive Kind where
  /-- A class declaration or class expression. -/
  | classDef
  /-- A field, method or accessor of a class. -/
  | member
  /-- A private name such as `#x`. -/
  | privateName
  /-- A test `#x in e`. -/
  | brandCheck
  /-- Anything else. -/
  | other
deriving DecidableEq, Repr, Inhabited

namespace Kind

/-- Every kind, in the order of its constructors. -/
def all : List Kind := [.classDef, .member, .privateName, .brandCheck, .other]

/-- The label a kind is written with. -/
def label : Kind → String
  | .classDef => "class"
  | .member => "member"
  | .privateName => "private_name"
  | .brandCheck => "brand_check"
  | .other => "other"

/-- The kind with a given label. -/
def ofLabel? (s : String) : Option Kind := all.find? (·.label = s)

/-- **Labels are read back.** -/
theorem ofLabel?_label (k : Kind) : ofLabel? k.label = some k := by
  cases k <;> decide

end Kind

/-- The fields the pass looks into. -/
inductive Field where
  /-- The declared name of a member. -/
  | name
  /-- The body of a class. -/
  | body
  /-- The private name of a brand check. -/
  | left
  /-- The tested expression of a brand check. -/
  | right
deriving DecidableEq, Repr, Inhabited

namespace Field

/-- Every field. -/
def all : List Field := [.name, .body, .left, .right]

/-- The label a field is written with. -/
def label : Field → String
  | .name => "name"
  | .body => "body"
  | .left => "left"
  | .right => "right"

/-- The field with a given label. -/
def ofLabel? (s : String) : Option Field := all.find? (·.label = s)

end Field

/-- A type of finite syntax trees. -/
class Tree (τ : Type) where
  /-- The kind of a node. -/
  kind : τ → Kind
  /-- Offset of the node's first character. -/
  start : τ → Int
  /-- Offset just past the node's last character. -/
  stop : τ → Int
  /-- The node's text. -/
  text : τ → Text
  /-- The node's children in document order. -/
  children : τ → List τ
  /-- The node in one of the four fields. -/
  child? : τ → Field → Option τ
  /-- Nodes are finite. -/
  finite : ∃ size : τ → Nat,
    (∀ t, total size (children t) < size t) ∧ ∀ t f u, child? t f = some u → size u < size t

namespace Tree

variable {τ : Type} [Tree τ]

/-- A size for every node, with which walks are seen to end. -/
noncomputable def size : τ → Nat := Classical.choose (@finite τ _)

theorem size_children (t : τ) : total size (children t) < size t :=
  (Classical.choose_spec (@finite τ _)).1 t

theorem size_child? {t u : τ} {f : Field} (h : child? t f = some u) : size u < size t :=
  (Classical.choose_spec (@finite τ _)).2 t f u h

end Tree

/-- Syntax trees written out, with kinds from `κ`. -/
inductive Node (κ : Type) where
  /-- A node of a kind, over a span, with a text, children, and nodes in fields. -/
  | mk (kind : κ) (start stop : Int) (text : Text) (children : List (Node κ))
      (fields : List (Field × Node κ))

namespace Node

variable {κ : Type}

/-- The kind of a node. -/
def kind : Node κ → κ
  | .mk k .. => k

/-- Offset of the node's first character. -/
def start : Node κ → Int
  | .mk _ s .. => s

/-- Offset just past the node's last character. -/
def stop : Node κ → Int
  | .mk _ _ s .. => s

/-- The node's text. -/
def text : Node κ → Text
  | .mk _ _ _ t .. => t

/-- The node's children. -/
def children : Node κ → List (Node κ)
  | .mk _ _ _ _ cs _ => cs

/-- The nodes in the node's fields. -/
def fields : Node κ → List (Field × Node κ)
  | .mk _ _ _ _ _ fs => fs

/-- The node in a field, if the field is there. -/
def child? (n : Node κ) (f : Field) : Option (Node κ) := n.fields.lookup f

theorem total_sizeOf_le : ∀ cs : List (Node κ), total sizeOf cs ≤ sizeOf cs
  | [] => by simp
  | c :: cs => by
    have := total_sizeOf_le cs
    simp only [total_cons, List.cons.sizeOf_spec]
    omega

theorem total_sizeOf_children_lt (n : Node κ) : total sizeOf n.children < sizeOf n := by
  cases n with
  | mk k s e t cs fs =>
    have := total_sizeOf_le cs
    simp only [children, mk.sizeOf_spec]
    omega

theorem sizeOf_lookup_lt {f : Field} {u : Node κ} :
    ∀ {fs : List (Field × Node κ)}, fs.lookup f = some u → sizeOf u < sizeOf fs
  | [], h => by simp at h
  | (g, n) :: fs, h => by
    rw [List.lookup_cons] at h
    split at h
    · injection h with h
      subst h
      simp only [List.cons.sizeOf_spec, Prod.mk.sizeOf_spec]
      omega
    · have := sizeOf_lookup_lt h
      simp only [List.cons.sizeOf_spec]
      omega

theorem sizeOf_child?_lt {n u : Node κ} {f : Field} (h : n.child? f = some u) :
    sizeOf u < sizeOf n := by
  cases n with
  | mk k s e t cs fs =>
    have : sizeOf u < sizeOf fs := sizeOf_lookup_lt h
    simp only [mk.sizeOf_spec]
    omega

/-- Nodes form trees once each of their kinds is read as one of the pass's. -/
@[reducible] def tree (read : κ → Kind) : Tree (Node κ) where
  kind n := read n.kind
  start := start
  stop := stop
  text := text
  children := children
  child? := child?
  finite := ⟨sizeOf, total_sizeOf_children_lt, fun _ _ _ => sizeOf_child?_lt⟩

instance : Tree (Node Kind) := tree id

end Node

end Sigil
