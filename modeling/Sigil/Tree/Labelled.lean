import Sigil.Json.Display
import Sigil.Walk

/-!
# Tree/Labelled — trees whose kinds are given by label

A tree from outside may carry labels that name no kind.  Such a label does no harm until a walk
looks at it.  `lookedAt` lists the nodes in the order in which a walk looks at them, so the first
bad label on that list is the one a walk stumbles over.
-/

namespace Sigil

/-- A label that names no kind. -/
structure UnknownKind where
  /-- The label. -/
  label : Json
deriving Repr

/-- The wording of a bad label. -/
def UnknownKind.message (e : UnknownKind) : String :=
  e.label.literal ++ " is not a valid NodeKind"

/-- The kind that a label names. -/
def Kind.ofJson? : Json → Option Kind
  | .str s => ofLabel? s
  | _ => none

/-- A tree whose kinds are given by label. -/
abbrev Labelled := Node Json

namespace Labelled

/-- A label that names no kind reads as `other`. -/
instance : Tree Labelled := Node.tree fun l => (Kind.ofJson? l).getD .other

/-- The kind of a node, or its bad label. -/
def kindOf (n : Labelled) : Except UnknownKind Kind :=
  match Kind.ofJson? n.kind with
  | some k => .ok k
  | none => .error ⟨n.kind⟩

/-- How a node shows itself: the name of its type, its kind and its span. -/
def shown (typeName : String) (n : Labelled) : Except UnknownKind String :=
  match kindOf n with
  | .error e => .error e
  | .ok k =>
    .ok ("<" ++ typeName ++ " " ++ k.label ++ " [" ++ toString n.start ++ ":" ++
      toString n.stop ++ "]>")

/-- The nodes a class looks at to find the names it declares. -/
def declarationNodes {τ : Type} [Tree τ] (c : τ) : List τ :=
  match Tree.child? c .body with
  | none => []
  | some body =>
    (Tree.children body).flatMap fun m =>
      m :: if Tree.kind m = .member then (Tree.child? m .name).toList else []

/-- The nodes that a walk looks at, in its order. -/
def lookedAt {τ : Type} [Tree τ] (todo : List τ) : List τ :=
  match todo with
  | [] => []
  | t :: rest =>
    match Tree.kind t with
    | .classDef => t :: (declarationNodes t ++ lookedAt (Tree.children t ++ rest))
    | .brandCheck =>
      match _h : Tree.child? t .right with
      | some r => t :: lookedAt (r :: rest)
      | none => t :: lookedAt rest
    | .privateName => t :: lookedAt rest
    | .member | .other => t :: lookedAt (Tree.children t ++ rest)
termination_by total Tree.size todo
decreasing_by
  all_goals
    have := Tree.size_children t
    simp only [total_append, total_cons]
  · omega
  · have := Tree.size_child? _h
    omega
  · omega
  · omega
  · omega

/-- The bad label that a walk from a root stumbles over, if there is one. -/
def stumble? (root : Labelled) : Option UnknownKind :=
  (lookedAt [root]).findSome? fun n =>
    match kindOf n with
    | .ok _ => none
    | .error e => some e

end Labelled

end Sigil
