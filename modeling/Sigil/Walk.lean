import Sigil.Edit
import Sigil.Scope
import Sigil.Tree

/-!
# Walk — finding the private names of a tree and the edits that rename them

A walk goes through a tree in document order.  A class opens a table of the private names its own
members declare, before anything below the class is looked at, and closes it when everything below
is done.  A private name that an open class declares is replaced; in a brand check `#x in e` it
becomes a quoted property key.  All other names stay.

The walk keeps its own stack of what is still to do, so deep trees need no deep recursion.
-/

namespace Sigil

/-- What a walk has gathered so far. -/
structure Walker where
  /-- The classes open at this point. -/
  scopes : Scopes := {}
  /-- The edits found, in the order of the walk. -/
  edits : List Edit := []
  /-- How many classes declared a private name. -/
  classCount : Nat := 0
deriving DecidableEq, Repr, Inhabited

/-- One step that a walk still has to take. -/
inductive Pending (τ : Type) where
  /-- Look at a node. -/
  | visit (node : τ)
  /-- Close the innermost class. -/
  | leave

namespace Walk

variable {τ : Type} [Tree τ]

/-- The private name a member declares. -/
def memberName? (member : τ) : Option Text :=
  match Tree.kind member with
  | .member =>
    match Tree.child? member .name with
    | some n => if Tree.kind n = .privateName then some (Tree.text n) else none
    | none => none
  | _ => none

/-- The private names that the members in a class's body declare, in order, repeats included. -/
def declaredNames (c : τ) : List Text :=
  match Tree.child? c .body with
  | some body => (Tree.children body).filterMap memberName?
  | none => []

/-- Writes the replacement of `t`'s text over `t`'s span, if some open class declares it. -/
def rename (t : τ) (quoted : Bool) (w : Walker) : Walker :=
  match w.scopes.resolve (Tree.text t) with
  | none => w
  | some r =>
    let newText := if quoted then '\x27' :: (r ++ ['\x27']) else r
    { w with edits := w.edits ++ [⟨Tree.start t, Tree.stop t, newText⟩] }

/-- Opens a class. -/
def enter (c : τ) (w : Walker) : Walker :=
  let (table, scopes) := w.scopes.enter (declaredNames c)
  { w with
    scopes := scopes
    classCount := if table.isEmpty then w.classCount else w.classCount + 1 }

/-- Closes the innermost class. -/
def leave (w : Walker) : Walker :=
  match w.scopes.exit? with
  | none => w
  | some (_, scopes) => { w with scopes := scopes }

/-- What one step does to the walker and puts in front of what is left to do. -/
def step (w : Walker) : Pending τ → List (Pending τ) × Walker
  | .leave => ([], leave w)
  | .visit t =>
    match Tree.kind t with
    | .classDef => ((Tree.children t).map .visit ++ [.leave], enter t w)
    | .brandCheck =>
      let w := match Tree.child? t .left with
        | some l => rename l true w
        | none => w
      match Tree.child? t .right with
      | some r => ([.visit r], w)
      | none => ([], w)
    | .privateName => ([], rename t false w)
    | .member | .other => ((Tree.children t).map .visit, w)

/-- The work in one step. -/
noncomputable def cost : Pending τ → Nat
  | .visit t => 2 * Tree.size t
  | .leave => 1

/-- The work in all steps left. -/
noncomputable def totalCost (todo : List (Pending τ)) : Nat := total cost todo

theorem totalCost_cons (p : Pending τ) (todo : List (Pending τ)) :
    totalCost (p :: todo) = cost p + totalCost todo :=
  total_cons cost p todo

theorem totalCost_append (a b : List (Pending τ)) :
    totalCost (a ++ b) = totalCost a + totalCost b :=
  total_append cost a b

theorem totalCost_visit : ∀ ts : List τ,
    totalCost (ts.map Pending.visit) = 2 * total Tree.size ts
  | [] => rfl
  | t :: ts => by
    rw [List.map_cons, totalCost_cons, totalCost_visit ts, total_cons, cost]
    omega

/-- **Every step leaves less to do.** -/
theorem totalCost_step_lt (w : Walker) (p : Pending τ) : totalCost (step w p).1 < cost p := by
  cases p with
  | leave => simp [step, totalCost, cost]
  | visit t =>
    have hc := Tree.size_children t
    simp only [step, cost]
    split
    · rw [totalCost_append, totalCost_visit]
      simp only [totalCost, total_cons, total_nil, cost]
      omega
    · split
      · next h =>
        have := Tree.size_child? h
        simp only [totalCost, total_cons, total_nil, cost]
        omega
      · simp only [totalCost, total_nil]
        omega
    · simp only [totalCost, total_nil]
      omega
    · rw [totalCost_visit]
      omega
    · rw [totalCost_visit]
      omega

/-- Takes steps until nothing is left to do. -/
def run (todo : List (Pending τ)) (w : Walker) : Walker :=
  match todo with
  | [] => w
  | p :: rest => run ((step w p).1 ++ rest) (step w p).2
termination_by totalCost todo
decreasing_by
  rw [totalCost_append, totalCost_cons]
  have := totalCost_step_lt w p
  omega

end Walk

/-- **Walks a tree**, adding to what the walker has gathered. -/
def Walker.walk {τ : Type} [Tree τ] (w : Walker) (root : τ) : Walker :=
  Walk.run [.visit root] w

/-- How many short names a walker has handed out. -/
def Walker.fieldCount (w : Walker) : Nat := w.scopes.count

end Sigil
