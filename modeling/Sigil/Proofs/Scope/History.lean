import Mathlib.Data.List.Induction
import Mathlib.Data.List.Nodup
import Sigil.Proofs.ShortName.Words
import Sigil.Proofs.Walk.Lexical

/-!
# Proofs/Scope/History — scopes answer from their history

    before ++ enter names :: later   leaves the class of `names` open
                                     iff `later` never closes more than it has opened

Which classes are open can be counted (`StillOpen`), and so can the short names that were taken
before one of them was opened.  So what a name stands for is told from the operations alone
(`Meant`).  The stack is one way to keep track of it: each of its tables belongs to an open class,
and the operations since then are balanced but for the classes opened further in (`Layers`).
-/

namespace Sigil.Scopes

/-- What scopes are asked to do. -/
inductive Operation where
  /-- A class is opened, which declares some names. -/
  | enter (names : List Text)
  /-- The innermost class is closed. -/
  | exit
  /-- A name is looked up. -/
  | resolve (x : Text)
  /-- A short name is drawn for something else. -/
  | next
deriving DecidableEq, Repr

/-- What they answer. -/
inductive Answer where
  /-- The table of the class that was opened. -/
  | entered (table : ScopeTable)
  /-- The table of the class that was closed. -/
  | left (table : ScopeTable)
  /-- No class is open. -/
  | refused
  /-- What a name stands for, if for anything. -/
  | found (r : Option Text)
  /-- The short name that was drawn. -/
  | drawn (r : Text)
deriving DecidableEq, Repr

/-- Does what is asked.  An exit is refused where no class is open, and changes nothing there. -/
def perform (s : Scopes) : Operation → Answer × Scopes
  | .enter names =>
    let (table, s) := s.enter names
    (.entered table, s)
  | .exit =>
    match s.exit? with
    | some (table, s) => (.left table, s)
    | none => (.refused, s)
  | .resolve x => (.found (s.resolve x), s)
  | .next =>
    let (r, s) := s.draw
    (.drawn r, s)

/-- The scopes after some operations. -/
def run (s : Scopes) (ops : List Operation) : Scopes := ops.foldl (fun s op => (s.perform op).2) s

/-- The answers to some operations, one after another. -/
def answers (s : Scopes) : List Operation → List Answer
  | [] => []
  | op :: ops => (s.perform op).1 :: answers (s.perform op).2 ops

theorem run_concat (s : Scopes) (ops : List Operation) (op : Operation) :
    s.run (ops ++ [op]) = ((s.run ops).perform op).2 := by
  rw [run, List.foldl_append]
  rfl

/-! ## Short names -/

/-- The short names that an answer hands out. -/
def Answer.names : Answer → List Text
  | .entered table => table.map (·.2)
  | .drawn r => [r]
  | .left _ | .refused | .found _ => []

/-- How many short names an operation takes: a class takes one for each name that it declares. -/
def Operation.draws : Operation → Nat
  | .enter names => names.eraseDups.length
  | .next => 1
  | .exit | .resolve _ => 0

/-- How many short names some operations take. -/
def drawn (ops : List Operation) : Nat := total Operation.draws ops

theorem map_snd_freshTable (n : Nat) (names : List Text) :
    (Lexical.freshTable n names).map (·.2)
      = (List.range' n names.eraseDups.length).map ShortName.name := by
  rw [Lexical.freshTable, List.map_map, ← List.zipIdx_map_snd n names.eraseDups, List.map_map]
  rfl

/-- **An operation hands out the next short names.** -/
theorem perform_spec (s : Scopes) (op : Operation) :
    (s.perform op).2.count = s.count + op.draws ∧
      (s.perform op).1.names = (List.range' s.count op.draws).map ShortName.name := by
  cases op with
  | enter names =>
    rw [perform, Lexical.enter_eq]
    exact ⟨congrArg _ (Lexical.length_freshTable _ _), map_snd_freshTable _ _⟩
  | exit =>
    rw [perform, exit?]
    cases s.tables <;> exact ⟨rfl, rfl⟩
  | resolve x => exact ⟨rfl, rfl⟩
  | next => exact ⟨rfl, rfl⟩

/-- **Operations hand out short names one after another.** -/
theorem run_spec (s : Scopes) (ops : List Operation) :
    (s.run ops).count = s.count + drawn ops ∧
      (s.answers ops).flatMap Answer.names
        = (List.range' s.count (drawn ops)).map ShortName.name := by
  induction ops generalizing s with
  | nil => exact ⟨rfl, rfl⟩
  | cons op ops ih =>
    obtain ⟨hcount, hnames⟩ := perform_spec s op
    obtain ⟨hcounts, hrest⟩ := ih (s.perform op).2
    rw [hcount] at hcounts hrest
    refine ⟨hcounts.trans (Nat.add_assoc _ _ _), ?_⟩
    rw [answers, List.flatMap_cons, hnames, hrest, ← List.map_append, List.range'_append_1]
    rfl

/-! ## Counting entries and exits -/

/-- How many classes an operation opens. -/
def Operation.opens : Operation → Nat
  | .enter _ => 1
  | .exit | .resolve _ | .next => 0

/-- How many classes an operation closes, if so many are open. -/
def Operation.closes : Operation → Nat
  | .exit => 1
  | .enter _ | .resolve _ | .next => 0

/-- How many classes some operations open. -/
def opened (ops : List Operation) : Nat := total Operation.opens ops

/-- How many classes some operations close, if so many are open. -/
def closed (ops : List Operation) : Nat := total Operation.closes ops

@[simp] theorem opened_nil : opened [] = 0 := rfl

@[simp] theorem closed_nil : closed [] = 0 := rfl

@[simp] theorem opened_cons (op : Operation) (ops : List Operation) :
    opened (op :: ops) = op.opens + opened ops := rfl

@[simp] theorem closed_cons (op : Operation) (ops : List Operation) :
    closed (op :: ops) = op.closes + closed ops := rfl

@[simp] theorem opened_append (a b : List Operation) : opened (a ++ b) = opened a + opened b :=
  total_append ..

@[simp] theorem closed_append (a b : List Operation) : closed (a ++ b) = closed a + closed b :=
  total_append ..

/-- Operations that never close more classes than they have opened before. -/
def Nested (ops : List Operation) : Prop :=
  ∀ k ≤ ops.length, closed (ops.take k) ≤ opened (ops.take k)

instance (ops : List Operation) : Decidable (Nested ops) :=
  inferInstanceAs (Decidable (∀ k ≤ ops.length, closed (ops.take k) ≤ opened (ops.take k)))

/-- Operations in which every exit closes a class opened there, and no class stays open. -/
structure Balanced (ops : List Operation) : Prop where
  nested : Nested ops
  settled : closed ops = opened ops

section

variable {a b ops : List Operation} {op : Operation}

theorem Nested.take_le (h : Nested ops) (k : Nat) :
    closed (ops.take k) ≤ opened (ops.take k) := by
  rcases Nat.le_total k ops.length with hk | hk
  · exact h k hk
  · rw [List.take_of_length_le hk, ← List.take_length (l := ops)]
    exact h _ (Nat.le_refl _)

theorem Nested.closed_le (h : Nested ops) : closed ops ≤ opened ops := by
  have := h.take_le ops.length
  rwa [List.take_length] at this

theorem Nested.append (ha : Nested a) (hb : Nested b) : Nested (a ++ b) := by
  intro k _
  have hfront := ha.take_le k
  have hback := hb.take_le (k - a.length)
  rw [List.take_append, closed_append, opened_append]
  omega

theorem Nested.of_append (h : Nested (a ++ b)) : Nested a := by
  intro k hk
  have := h.take_le k
  rwa [List.take_append_of_le_length hk] at this

theorem Nested.cons (hop : op.closes = 0) (h : Nested ops) : Nested (op :: ops) := by
  intro k _
  cases k with
  | zero => exact Nat.le_refl 0
  | succ k =>
    have := h.take_le k
    rw [List.take_succ_cons, closed_cons, opened_cons]
    omega

theorem balanced_nil : Balanced [] := ⟨by decide, rfl⟩

theorem balanced_singleton (hopens : op.opens = 0) (hcloses : op.closes = 0) : Balanced [op] := by
  refine ⟨balanced_nil.nested.cons hcloses, ?_⟩
  rw [closed_cons, opened_cons, hcloses, hopens]
  rfl

theorem Balanced.append (ha : Balanced a) (hb : Balanced b) : Balanced (a ++ b) := by
  refine ⟨ha.nested.append hb.nested, ?_⟩
  rw [closed_append, opened_append, ha.settled, hb.settled]

/-- A class may be opened in front of balanced operations and closed behind them. -/
theorem Balanced.wrap (h : Balanced ops) (names : List Text) :
    Balanced (.enter names :: (ops ++ [.exit])) := by
  refine ⟨fun k _ => ?_, ?_⟩
  · cases k with
    | zero => exact Nat.le_refl 0
    | succ k =>
      have hinside := h.nested.take_le k
      have hexit : closed ([Operation.exit].take (k - ops.length)) ≤ 1 := by
        cases k - ops.length <;> simp [Operation.closes]
      simp only [List.take_succ_cons, List.take_append, closed_cons, opened_cons, closed_append,
        opened_append, Operation.opens, Operation.closes]
      omega
  · have := h.settled
    simp only [closed_cons, opened_cons, closed_append, opened_append, closed_nil, opened_nil,
      Operation.opens, Operation.closes]
    omega

end

/-! ## Open classes -/

/-- **A class is open**: it was opened at some time, and what came later never closed more classes
than it had opened. -/
structure StillOpen (ops before : List Operation) (names : List Text) (later : List Operation) :
    Prop where
  split : ops = before ++ .enter names :: later
  nested : Nested later

section

variable {ops mid before later b a : List Operation} {op : Operation} {names ns : List Text}

theorem StillOpen.append (h : StillOpen ops before names later) (hmid : Nested mid) :
    StillOpen (ops ++ mid) before names (later ++ mid) := by
  refine ⟨?_, h.nested.append hmid⟩
  rw [h.split, List.append_assoc, List.cons_append]

/-- Balanced operations leave none of their classes open. -/
theorem Balanced.not_stillOpen (h : Balanced mid) : ¬StillOpen mid before names later := by
  rintro ⟨rfl, hlater⟩
  have hfront := h.nested.of_append.closed_le
  have hback := hlater.closed_le
  have hall := h.settled
  simp only [closed_append, opened_append, closed_cons, opened_cons, Operation.opens,
    Operation.closes] at hall
  omega

/-- **Behind balanced operations** no other classes are open than in front of them. -/
theorem StillOpen.of_append (h : StillOpen (ops ++ mid) before names later) (hmid : Balanced mid) :
    ∃ d, later = d ++ mid ∧ StillOpen ops before names d := by
  obtain ⟨hsplit, hnested⟩ := h
  rcases List.append_eq_append_iff.1 hsplit with ⟨c, rfl, hc⟩ | ⟨c, rfl, hc⟩
  · exact absurd ⟨hc, hnested⟩ hmid.not_stillOpen
  · cases c with
    | nil =>
      have hinside : StillOpen mid [] names later := ⟨hc.symm, hnested⟩
      exact absurd hinside hmid.not_stillOpen
    | cons op d =>
      obtain ⟨rfl, rfl⟩ := List.cons.inj hc
      exact ⟨d, rfl, rfl, hnested.of_append⟩

/-- Behind one more operation a class is open that was open before, or that it has opened. -/
theorem StillOpen.of_concat (h : StillOpen (ops ++ [op]) before names later) :
    before = ops ∧ op = .enter names ∧ later = [] ∨
      ∃ d, later = d ++ [op] ∧ StillOpen ops before names d := by
  obtain ⟨hsplit, hnested⟩ := h
  rcases List.eq_nil_or_concat later with rfl | ⟨d, last, rfl⟩
  · obtain ⟨rfl, hop⟩ := List.append_inj' hsplit rfl
    exact .inl ⟨rfl, List.singleton_inj.1 hop, rfl⟩
  · rw [List.concat_eq_append] at hsplit hnested ⊢
    rw [← List.cons_append, ← List.append_assoc] at hsplit
    obtain ⟨rfl, hop⟩ := List.append_inj' hsplit rfl
    obtain rfl := List.singleton_inj.1 hop
    exact .inr ⟨d, rfl, rfl, hnested.of_append⟩

/-- **Of two open classes** one is opened inside the other, if they are not the same. -/
theorem StillOpen.same_or_inside (h : StillOpen ops before names later)
    (h' : StillOpen ops b ns a) : (before = b ∧ names = ns) ∨
      (∃ d, StillOpen later d ns a) ∨ ∃ d, StillOpen a d names later := by
  rcases List.append_eq_append_iff.1 (h.split.symm.trans h'.split) with ⟨c, rfl, hc⟩ | ⟨c, rfl, hc⟩
  · cases c with
    | nil =>
      cases (List.cons.inj hc).1
      exact .inl ⟨(List.append_nil _).symm, rfl⟩
    | cons op d => exact .inr (.inl ⟨d, (List.cons.inj hc).2, h'.nested⟩)
  · cases c with
    | nil =>
      cases (List.cons.inj hc).1
      exact .inl ⟨List.append_nil _, rfl⟩
    | cons op d => exact .inr (.inr ⟨d, (List.cons.inj hc).2, h.nested⟩)

/-- **Inside a class**, with balanced operations since it was opened, it is open and so are the
classes that it was opened in. -/
theorem StillOpen.of_inside (h : StillOpen (before ++ .enter names :: later) b ns a)
    (hlater : Balanced later) : b = before ∧ ns = names ∧ a = later ∨
      ∃ d, a = d ++ .enter names :: later ∧ StillOpen before b ns d := by
  rw [← List.singleton_append, ← List.append_assoc] at h
  obtain ⟨d, rfl, hd⟩ := h.of_append hlater
  rcases hd.of_concat with ⟨rfl, hnames, rfl⟩ | ⟨d', rfl, hd'⟩
  · cases hnames
    exact .inl ⟨rfl, rfl, rfl⟩
  · exact .inr ⟨d', by rw [List.append_assoc, List.singleton_append], hd'⟩

end

/-! ## The stack -/

/-- **The tables that operations leave on the stack.**  Where no class is open there are none; else
the operations since some class was opened are balanced, and its table lies on those of before. -/
inductive Layers : List Operation → List ScopeTable → Prop
  | ground {ops : List Operation} (h : ∀ before names later, ¬StillOpen ops before names later) :
      Layers ops []
  | inside {before later : List Operation} {tables : List ScopeTable} (names : List Text)
      (h : Layers before tables) (hlater : Balanced later) :
      Layers (before ++ .enter names :: later) (Lexical.freshTable (drawn before) names :: tables)

section

variable {ops mid : List Operation} {tables : List ScopeTable} {s : Scopes}

/-- **Balanced operations leave the stack as it was.** -/
theorem Layers.append (h : Layers ops tables) (hmid : Balanced mid) :
    Layers (ops ++ mid) tables := by
  cases h with
  | ground h =>
    refine .ground fun before names later hopen => ?_
    obtain ⟨d, -, hd⟩ := hopen.of_append hmid
    exact h before names d hd
  | inside names h hlater =>
    rw [List.append_assoc, List.cons_append]
    exact .inside names h (hlater.append hmid)

/-- An exit takes the innermost table away, if there is one. -/
theorem Layers.exit (h : Layers ops tables) : Layers (ops ++ [.exit]) tables.tail := by
  cases h with
  | ground h =>
    refine .ground fun before names later hopen => ?_
    rcases hopen.of_concat with ⟨-, hexit, -⟩ | ⟨d, -, hd⟩
    · cases hexit
    · exact h before names d hd
  | inside names h hlater =>
    rw [List.append_assoc, List.cons_append]
    exact h.append (hlater.wrap names)

/-- **What an operation does to the stack.** -/
theorem Layers.perform (h : Layers ops s.tables) (hcount : s.count = drawn ops) (op : Operation) :
    Layers (ops ++ [op]) (s.perform op).2.tables := by
  cases op with
  | enter names =>
    rw [Scopes.perform, Lexical.enter_eq, hcount]
    exact .inside names h balanced_nil
  | exit =>
    have hpop : (s.perform .exit).2.tables = s.tables.tail := by
      rw [Scopes.perform, exit?]
      cases hs : s.tables with
      | nil => exact hs
      | cons table rest => rfl
    exact hpop ▸ h.exit
  | resolve x => exact h.append (balanced_singleton rfl rfl)
  | next => exact h.append (balanced_singleton rfl rfl)

/-- **The stack keeps track** of the operations. -/
theorem layers_run (ops : List Operation) : Layers ops (run {} ops).tables := by
  induction ops using List.reverseRecOn with
  | nil => exact .ground fun _ _ _ h => by simpa using h.split
  | append_singleton ops op ih =>
    have hcount : (run {} ops).count = drawn ops := (run_spec {} ops).1.trans (Nat.zero_add _)
    rw [run_concat]
    exact ih.perform hcount op

theorem Layers.eq_nil_iff (h : Layers ops tables) :
    tables = [] ↔ ∀ before names later, ¬StillOpen ops before names later := by
  cases h with
  | ground h => exact iff_of_true rfl h
  | inside names h hlater =>
    exact iff_of_false (List.cons_ne_nil _ _) fun hnone => hnone _ _ _ ⟨rfl, hlater.nested⟩

end

/-! ## Looking up -/

/-- In a numbered list a name has the number of the place where it first occurs. -/
theorem lookup_zipIdx (names : List Text) (n : Nat) (x : Text) :
    ((names.zipIdx n).map fun p => (p.1, ShortName.name p.2)).lookup x
      = if x ∈ names then some (ShortName.name (n + names.idxOf x)) else none := by
  induction names generalizing n with
  | nil => rfl
  | cons y names ih =>
    rw [List.zipIdx_cons, List.map_cons, List.lookup_cons, ih, List.idxOf_cons]
    by_cases h : x = y
    · simp [h]
    · have hxy : (x == y) = false := beq_eq_false_iff_ne.2 h
      have hyx : (y == x) = false := beq_eq_false_iff_ne.2 (Ne.symm h)
      simp [h, hxy, hyx, Nat.add_assoc, Nat.add_comm 1]

theorem lookup_freshTable (n : Nat) (names : List Text) (x : Text) :
    (Lexical.freshTable n names).lookup x
      = if x ∈ names then some (ShortName.name (n + names.eraseDups.idxOf x)) else none := by
  rw [Lexical.freshTable, lookup_zipIdx]
  simp only [List.mem_eraseDups]

/-- **What a name stands for after some operations**: of the open classes that declare it, the one
opened last has numbered its names on from the short names taken before. -/
def Meant (ops : List Operation) (x r : Text) : Prop :=
  ∃ before names later, StillOpen ops before names later ∧ x ∈ names ∧
    (∀ b ns a, StillOpen later b ns a → x ∉ ns) ∧
    r = ShortName.name (drawn before + names.eraseDups.idxOf x)

variable {ops : List Operation} {tables : List ScopeTable} {x r r' : Text}

/-- Only one class was opened last. -/
theorem Meant.unique (h : Meant ops x r) (h' : Meant ops x r') : r = r' := by
  obtain ⟨before, names, later, hopen, hx, hlast, rfl⟩ := h
  obtain ⟨before', names', later', hopen', hx', hlast', rfl⟩ := h'
  rcases hopen.same_or_inside hopen' with ⟨rfl, rfl⟩ | ⟨d, hd⟩ | ⟨d, hd⟩
  · rfl
  · exact absurd hx' (hlast d names' later' hd)
  · exact absurd hx (hlast' d names later hd)

/-- **The stack finds what is meant**, and nothing only where no open class declares the name. -/
theorem Layers.lookup_spec (h : Layers ops tables) (x : Text) :
    (∀ r, tables.findSome? (·.lookup x) = some r → Meant ops x r) ∧
      (tables.findSome? (·.lookup x) = none →
        ∀ before names later, StillOpen ops before names later → x ∉ names) := by
  induction h with
  | ground h => exact ⟨fun r hr => absurd hr.symm (Option.some_ne_none r),
      fun _ b ns a hopen => absurd hopen (h b ns a)⟩
  | inside names h hlater ih =>
    obtain ⟨hfound, hnone⟩ := ih
    rw [List.findSome?_cons, lookup_freshTable]
    by_cases hx : x ∈ names
    · rw [if_pos hx]
      refine ⟨fun r hr => ?_, fun h => absurd h (Option.some_ne_none _)⟩
      obtain rfl := Option.some.inj hr
      exact ⟨_, names, _, ⟨rfl, hlater.nested⟩, hx,
        fun _ _ _ hopen => absurd hopen hlater.not_stillOpen, rfl⟩
    · -- the class does not count, and all others were open when it was opened
      rw [if_neg hx]
      refine ⟨fun r hr => ?_, fun h b ns a hopen => ?_⟩
      · obtain ⟨b, ns, d, hopen, hns, hlast, rfl⟩ := hfound r hr
        refine ⟨b, ns, _, hopen.append (hlater.nested.cons rfl), hns, fun b' ns' a' hopen' => ?_,
          rfl⟩
        rcases hopen'.of_inside hlater with ⟨-, rfl, -⟩ | ⟨d', -, hd'⟩
        · exact hx
        · exact hlast b' ns' d' hd'
      · rcases hopen.of_inside hlater with ⟨-, rfl, -⟩ | ⟨d, -, hd⟩
        · exact hx
        · exact hnone h b ns d hd

theorem Layers.lookup_eq_some_iff (h : Layers ops tables) :
    tables.findSome? (·.lookup x) = some r ↔ Meant ops x r := by
  obtain ⟨hfound, hnone⟩ := h.lookup_spec x
  refine ⟨hfound r, fun hmeant => ?_⟩
  cases hlookup : tables.findSome? (·.lookup x) with
  | none =>
    obtain ⟨b, ns, a, hopen, hns, -⟩ := hmeant
    exact absurd hns (hnone hlookup b ns a hopen)
  | some r' => exact congrArg some ((hfound r' hlookup).unique hmeant)

theorem Layers.lookup_eq_none_iff (h : Layers ops tables) :
    tables.findSome? (·.lookup x) = none ↔
      ∀ before names later, StillOpen ops before names later → x ∉ names := by
  refine ⟨(h.lookup_spec x).2, fun hnone => Option.eq_none_iff_forall_ne_some.2 fun r hr => ?_⟩
  obtain ⟨b, ns, a, hopen, hns, -⟩ := h.lookup_eq_some_iff.1 hr
  exact hnone b ns a hopen hns

/-- **Scopes answer from their history.**  After any operations a name stands for what the open
class opened last of those that declare it has given to it, and for nothing where there is no such
class.  A class that is opened gives the next short names to the names it declares, in the order in
which they first occur.  An exit is refused iff no class is open, and changes nothing then.  The
short names handed out are the first ones in their order, none of them twice.  And balanced
operations change nothing about what any name stands for. -/
theorem answers_history (ops : List Operation) :
    (∀ x r, (run {} ops).resolve x = some r ↔ Meant ops x r) ∧
      (∀ x, (run {} ops).resolve x = none ↔
        ∀ before names later, StillOpen ops before names later → x ∉ names) ∧
      (∀ names, ((run {} ops).perform (.enter names)).1
        = .entered (Lexical.freshTable (drawn ops) names)) ∧
      ((run {} ops).perform .exit = (.refused, run {} ops) ↔
        ∀ before names later, ¬StillOpen ops before names later) ∧
      (answers {} ops).flatMap Answer.names
        = (List.range (run {} ops).count).map ShortName.name ∧
      ((answers {} ops).flatMap Answer.names).Nodup ∧
      ∀ mid, Balanced mid → ∀ x, (run {} (ops ++ mid)).resolve x = (run {} ops).resolve x := by
  have hlayers := layers_run ops
  obtain ⟨hcount, hnames⟩ := run_spec {} ops
  rw [Nat.zero_add] at hcount
  rw [← List.range_eq_range', ← hcount] at hnames
  refine ⟨fun x r => hlayers.lookup_eq_some_iff, fun x => hlayers.lookup_eq_none_iff,
    fun names => ?_, ?_, hnames, ?_, fun mid hmid x => Option.ext fun r => ?_⟩
  · rw [perform, Lexical.enter_eq, hcount]
  · rw [← hlayers.eq_nil_iff, perform, exit?]
    cases (run {} ops).tables with
    | nil => exact iff_of_true rfl rfl
    | cons table rest =>
      refine iff_of_false (fun h => ?_) (List.cons_ne_nil _ _)
      cases (Prod.mk.inj h).1
  · rw [hnames]
    exact List.Nodup.map ShortName.name_injective List.nodup_range
  · exact (layers_run (ops ++ mid)).lookup_eq_some_iff.trans
      (hlayers.append hmid).lookup_eq_some_iff.symm

/-- A class that repeats a name, a draw, a class inside it, one exit too many, and a class that
declares the same names again. -/
def reentered : List Operation :=
  [.enter [['x'], ['y'], ['x']], .next, .enter [['x']], .exit, .exit, .exit, .enter [['y'], ['x']]]

/-- Opening and closing a class that declares `x` once more changes nothing: it stands for the
sixth short name. -/
theorem answers_history_reentered :
    Balanced [.enter [['x']], .resolve ['x'], .exit] ∧
      (run {} (reentered ++ [.enter [['x']], .resolve ['x'], .exit])).resolve ['x']
        = some ['$', 'f'] := by
  have hbalanced : Balanced [.enter [['x']], .resolve ['x'], .exit] := ⟨by decide, by decide⟩
  obtain ⟨hresolve, -, -, -, -, -, hmid⟩ := answers_history reentered
  refine ⟨hbalanced, ?_⟩
  rw [hmid _ hbalanced, hresolve]
  refine ⟨reentered.take 6, [['y'], ['x']], [], ⟨rfl, balanced_nil.nested⟩, by decide,
    fun _ _ _ hopen => absurd hopen balanced_nil.not_stillOpen, ?_⟩
  have hnumber : drawn (reentered.take 6) + [['y'], ['x']].eraseDups.idxOf ['x'] = 5 := by decide
  rw [hnumber, ShortName.name, ShortName.word_of_lt (by decide)]
  rfl

end Sigil.Scopes
