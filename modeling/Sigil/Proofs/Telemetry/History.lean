import Mathlib.Algebra.Order.Ring.Int
import Mathlib.Data.List.DropRight
import Sigil.Proofs.Telemetry.Documents

/-!
# Proofs/Telemetry/History — the file of events says what has happened

    load (the store after operations)  =  what they recorded and appended since the last removal

Every event takes one line, and others append whole lines, so the text of the file can be cut where
one operation ends and the next begins (`documents_append`).  The text itself is what was written
since the file was last taken away, whatever collectors came and went (`holds_run`).  A list that
was handed out is none of the collector's own (`Apart`), so it may be changed at will.
-/

namespace Sigil.Telemetry

/-! ## Lists in memory -/

namespace Store

/-- The collector's list is there, and is none of those that were handed out. -/
structure Apart (s : Store) : Prop where
  own : s.collector.own < s.lists.length
  copies : ∀ n ∈ s.copies, n < s.lists.length ∧ n ≠ s.collector.own

variable {s : Store}

theorem Apart.change (h : s.Apart) (n : Nat) (f : List Event → List Event) :
    (s.change n f).Apart := by
  have hlength : (s.change n f).lists.length = s.lists.length := List.length_modify ..
  exact ⟨hlength ▸ h.own, fun k hk => hlength ▸ h.copies k hk⟩

theorem Apart.record (h : s.Apart) (e : Event) : (s.record e).Apart := by
  have hchange := h.change s.collector.own (· ++ [e])
  exact ⟨hchange.own, hchange.copies⟩

theorem Apart.handOut (h : s.Apart) : s.handOut.Apart := by
  have hlength : s.handOut.lists.length = s.lists.length + 1 := List.length_append ..
  refine ⟨hlength ▸ Nat.lt_succ_of_lt h.own, ?_⟩
  intro n hn
  rw [hlength]
  rcases List.mem_append.1 hn with hn | hn
  · exact (h.copies n hn).imp_left Nat.lt_succ_of_lt
  · rw [List.mem_singleton.1 hn]
    exact ⟨Nat.lt_succ_self _, (Nat.ne_of_lt h.own).symm⟩

theorem Apart.changeCopy (h : s.Apart) (i : Nat) (f : List Event → List Event) :
    (s.changeCopy i f).Apart := by
  rw [Store.changeCopy]
  split
  · exact h
  · exact h.change _ f

theorem Apart.reopen (h : s.Apart) : s.reopen.Apart := by
  have hlength : s.reopen.lists.length = s.lists.length + 1 := List.length_append ..
  refine ⟨hlength ▸ Nat.lt_succ_self _, ?_⟩
  intro n hn
  obtain ⟨hlt, -⟩ := h.copies n hn
  exact ⟨hlength ▸ Nat.lt_succ_of_lt hlt, Nat.ne_of_lt hlt⟩

end Store

/-! ## Operations -/

/-- What can happen to a collector and its file. -/
inductive Operation where
  /-- An event is recorded. -/
  | record (moment : Double) (metric value filename : Json) (extra : List (String × Json))
  /-- The events of a conversion are recorded. -/
  | conversion (clock : Nat → Double) (filename classes fields edits elapsed : Json)
  /-- The events are handed out. -/
  | handOut
  /-- A list that was handed out is changed: it is cleared, say. -/
  | changeCopy (i : Nat) (f : List Event → List Event)
  /-- Someone else puts text to the end of the file. -/
  | append (t : Text)
  /-- The file is taken away. -/
  | remove
  /-- A new collector takes the place of the old one. -/
  | reopen

namespace Operation

/-- The events that an operation records. -/
def events : Operation → List Event
  | record moment metric value filename extra => [event moment metric value filename extra]
  | conversion clock filename classes fields edits elapsed =>
    conversionEvents clock filename classes fields edits elapsed
  | _ => []

/-- The text that an operation puts to the end of the file. -/
def written : Operation → Text
  | append t => t
  | op => op.events.flatMap line

/-- The documents that an operation brings into the file. -/
def documents (depth : Nat) : Operation → List Json
  | append t => Telemetry.documents depth t
  | op => op.events.map .obj

/-- The file is taken away. -/
def isRemove : Operation → Bool
  | remove => true
  | _ => false

/-- A new collector takes over. -/
def isReopen : Operation → Bool
  | reopen => true
  | _ => false

end Operation

/-- What happened after the last of some operations. -/
def since (p : Operation → Bool) (ops : List Operation) : List Operation := ops.rtakeWhile (!p ·)

/-- What an operation makes of a collector and its file. -/
def Store.perform (s : Store) : Operation → Store
  | .record moment metric value filename extra =>
    s.record (event moment metric value filename extra)
  | .conversion clock filename classes fields edits elapsed =>
    s.recordAll (conversionEvents clock filename classes fields edits elapsed)
  | .handOut => s.handOut
  | .changeCopy i f => s.changeCopy i f
  | .append t => s.append t
  | .remove => s.remove
  | .reopen => s.reopen

/-- What a store holds after some operations: the collector the events since it took over, and the
file the text since it was last taken away. -/
structure Holds (ops : List Operation) (s : Store) : Prop where
  apart : s.Apart
  toFile : s.collector.toFile = true
  events : s.events = (since Operation.isReopen ops).flatMap Operation.events
  file : s.file.getD [] = (since Operation.isRemove ops).flatMap Operation.written

theorem since_concat_of_false {p : Operation → Bool} {op : Operation} (h : p op = false)
    (ops : List Operation) : since p (ops ++ [op]) = since p ops ++ [op] :=
  List.rtakeWhile_concat_pos _ _ _ (by simp [h])

/-- An operation that neither reopens nor removes adds its events and its text. -/
theorem Holds.concat {ops : List Operation} {op : Operation} {s s' : Store} (h : Holds ops s)
    (hreopen : op.isReopen = false) (hremove : op.isRemove = false) (hapart : s'.Apart)
    (htoFile : s'.collector.toFile = true) (hevents : s'.events = s.events ++ op.events)
    (hfile : s'.file.getD [] = s.file.getD [] ++ op.written) : Holds (ops ++ [op]) s' := by
  refine ⟨hapart, htoFile, ?_, ?_⟩
  · rw [since_concat_of_false hreopen, List.flatMap_append, List.flatMap_singleton, ← h.events,
      hevents]
  · rw [since_concat_of_false hremove, List.flatMap_append, List.flatMap_singleton, ← h.file, hfile]

variable {depth : Nat}

/-- An operation that can be read back from the file: what it appends are whole lines, each of which
holds a document or is found to hold none, and the values it records are legible. -/
inductive Operation.Legible (depth : Nat) : Operation → Prop
  | record {moment : Double} {metric value filename : Json} {extra : List (String × Json)}
    (hmoment : Json.Legible depth (.double moment)) (hmetric : Json.Legible depth metric)
    (hvalue : Json.Legible depth value) (hfilename : Json.Legible depth filename)
    (hextra : ∀ kv ∈ extra, Json.Legible depth kv.2) :
    Legible depth (.record moment metric value filename extra)
  | conversion {clock : Nat → Double} {filename classes fields edits elapsed : Json}
    (hclock : ∀ i < 4, Json.Legible depth (.double (clock i)))
    (hfilename : Json.Legible depth filename) (hclasses : Json.Legible depth classes)
    (hfields : Json.Legible depth fields) (hedits : Json.Legible depth edits)
    (helapsed : Json.Legible depth elapsed) :
    Legible depth (.conversion clock filename classes fields edits elapsed)
  | handOut : Legible depth .handOut
  | changeCopy (i : Nat) (f : List Event → List Event) : Legible depth (.changeCopy i f)
  | append {t : Text} (h : t.WholeLines) (hread : Readable (depth + 1) t) :
    Legible depth (.append t)
  | remove : Legible depth .remove
  | reopen : Legible depth .reopen

/-- **An operation records legible events.** -/
theorem Operation.Legible.events {op : Operation} (h : op.Legible depth) :
    ∀ e ∈ op.events, Json.Legible (depth + 1) (.obj e) := by
  cases h with
  | record hmoment hmetric hvalue hfilename hextra =>
    exact List.forall_mem_singleton.2 (legible_event hmoment hmetric hvalue hfilename hextra)
  | @conversion clock _ _ _ _ _ hclock hfilename hclasses hfields hedits helapsed =>
    have hcounter : ∀ i < 4, ∀ (name : String) {v : Json}, Json.Legible depth v →
        Json.Legible (depth + 1) (.obj (event (clock i) (.str name) v _ [])) :=
      fun i hi name v hv => legible_event (hclock i hi) (.str name) hv hfilename
        fun _ hkv => absurd hkv List.not_mem_nil
    simp only [Operation.events, conversionEvents, List.forall_mem_cons]
    exact ⟨hcounter 0 (by decide) _ hclasses, hcounter 1 (by decide) _ hfields,
      hcounter 2 (by decide) _ hedits, hcounter 3 (by decide) _ helapsed,
      fun _ he => absurd he List.not_mem_nil⟩
  | handOut | changeCopy | append | remove | reopen => exact fun _ he => absurd he List.not_mem_nil

end Sigil.Telemetry
