import Sigil.SourceMap.Decode

/-!
# Proofs/SourceMap/Stream — reading mappings from left to right

The reader first cuts its string into lines and then each line into segments.  `readFrom` is what it
does from the middle of a line on.  Its laws take one thing at a time off the front of the string: a
semicolon, a comma, or a segment.
-/

namespace Sigil

namespace SourceMap

variable (sources names : List Json)

/-- Reads on from the middle of a line; `column` is that of the last segment. -/
def readFrom (line : Nat) (column : Int) (r : Running) (text : Text) : Except Flaw (List Mapping) :=
  match Text.splitOn ';' text with
  | [] => .ok []
  | first :: rest =>
    match decodeSegments sources names line column r (Text.splitOn ',' first) with
    | .error f => .error f
    | .ok (ms, r) =>
      match decodeLines sources names (line + 1) r rest with
      | .error f => .error f
      | .ok more => .ok (ms ++ more)

theorem readFrom_eq {line : Nat} {column : Int} {r : Running} {text first : Text}
    {rest : List Text} (h : Text.splitOn ';' text = first :: rest) :
    readFrom sources names line column r text =
      match decodeSegments sources names line column r (Text.splitOn ',' first) with
      | .error f => .error f
      | .ok (ms, r) =>
        match decodeLines sources names (line + 1) r rest with
        | .error f => .error f
        | .ok more => .ok (ms ++ more) := by
  rw [readFrom, h]

theorem decodeLines_eq_readFrom (line : Nat) (r : Running) (text : Text) :
    decodeLines sources names line r (Text.splitOn ';' text)
      = readFrom sources names line 0 r text := by
  obtain ⟨first, rest, h⟩ := Text.exists_splitOn ';' text
  rw [readFrom, h]
  rfl

theorem decodeMappings_eq_readFrom (text : Text) :
    decodeMappings sources names text = readFrom sources names 1 0 {} text :=
  decodeLines_eq_readFrom sources names 1 {} text

theorem readFrom_nil (line : Nat) (column : Int) (r : Running) :
    readFrom sources names line column r [] = .ok [] :=
  rfl

/-- **A semicolon** ends the line. -/
theorem readFrom_semicolon (line : Nat) (column : Int) (r : Running) (text : Text) :
    readFrom sources names line column r (';' :: text)
      = readFrom sources names (line + 1) 0 r text := by
  rw [readFrom_eq _ _ (Text.splitOn_sep ';' text), ← decodeLines_eq_readFrom]
  simp only [Text.splitOn, decodeSegments, List.nil_append]
  cases decodeLines sources names (line + 1) r (Text.splitOn ';' text) <;> rfl

theorem readFrom_semicolons (k line : Nat) (column : Int) (r : Running) (text : Text) :
    readFrom sources names line column r (List.replicate (k + 1) ';' ++ text)
      = readFrom sources names (line + (k + 1)) 0 r text := by
  induction k generalizing line column with
  | zero => exact readFrom_semicolon sources names line column r text
  | succ k ih =>
    rw [List.replicate_succ, List.cons_append, readFrom_semicolon, ih]
    exact congrArg (readFrom sources names · 0 r text) (by omega)

/-- **A comma** changes nothing. -/
theorem readFrom_comma (line : Nat) (column : Int) (r : Running) (text : Text) :
    readFrom sources names line column r (',' :: text)
      = readFrom sources names line column r text := by
  obtain ⟨first, rest, h⟩ := Text.exists_splitOn ';' text
  have hcomma : Text.splitOn ';' (',' :: text) = (',' :: first) :: rest :=
    Text.splitOn_cons_of_ne (by decide) h
  rw [readFrom_eq _ _ hcomma, readFrom_eq _ _ h, Text.splitOn_sep, decodeSegments]

/-- What follows a segment: nothing, a comma or a semicolon. -/
def AtBreak (text : Text) : Prop := ∀ c ∈ text.head?, c = ',' ∨ c = ';'

theorem comma_of_atBreak {text first : Text} {rest : List Text} (ht : AtBreak text)
    (h : Text.splitOn ';' text = first :: rest) : ∀ c ∈ first.head?, c = ',' := by
  cases text with
  | nil =>
    obtain ⟨rfl, -⟩ := List.cons.inj h
    exact fun c hc => absurd hc (Option.not_mem_none c)
  | cons c text =>
    rcases ht c rfl with rfl | rfl
    · obtain ⟨part, parts, htail⟩ := Text.exists_splitOn ';' text
      rw [Text.splitOn_cons_of_ne (by decide) htail] at h
      obtain ⟨rfl, -⟩ := List.cons.inj h
      exact fun c hc => (Option.some.inj hc).symm
    · rw [Text.splitOn_sep] at h
      obtain ⟨rfl, -⟩ := List.cons.inj h
      exact fun c hc => absurd hc (Option.not_mem_none c)

theorem decodeSegments_cons {segment : Text} (hne : segment ≠ []) (line : Nat) (column : Int)
    (r : Running) (parts : List Text) :
    decodeSegments sources names line column r (segment :: parts) =
      match decodeSegment sources names line segment column r with
      | .error f => .error f
      | .ok (m, s) =>
        match decodeSegments sources names line m.generatedColumn s parts with
        | .error f => .error f
        | .ok (ms, t) => .ok (m :: ms, t) := by
  cases segment with
  | nil => exact absurd rfl hne
  | cons c segment => rfl

/-- **A segment** gives its mapping or a flaw; what follows is read with the values it has set. -/
theorem readFrom_append {segment text : Text} (hne : segment ≠ []) (hcomma : ',' ∉ segment)
    (hsemicolon : ';' ∉ segment) (htext : AtBreak text) (line : Nat) (column : Int) (r : Running) :
    readFrom sources names line column r (segment ++ text) =
      match decodeSegment sources names line segment column r with
      | .error f => .error f
      | .ok (m, s) =>
        match readFrom sources names line m.generatedColumn s text with
        | .error f => .error f
        | .ok ms => .ok (m :: ms) := by
  obtain ⟨first, rest, hsplit⟩ := Text.exists_splitOn ';' text
  obtain ⟨parts, hsegment, hparts⟩ :=
    Text.exists_splitOn_append hcomma (comma_of_atBreak htext hsplit)
  -- the line goes on with nothing or with a comma, so its first part is the segment
  rw [readFrom_eq _ _ (Text.splitOn_append hsemicolon hsplit), hsegment,
    decodeSegments_cons _ _ hne]
  cases decodeSegment sources names line segment column r with
  | error f => rfl
  | ok p =>
    simp only
    rw [readFrom_eq _ _ hsplit, hparts, decodeSegments]
    cases decodeSegments sources names line p.1.generatedColumn p.2 parts with
    | error f => rfl
    | ok q =>
      simp only
      cases decodeLines sources names (line + 1) q.2 rest <;> rfl

variable {sources names}

theorem readFrom_segment {line : Nat} {column : Int} {r s : Running} {segment text : Text}
    {m : Mapping} {ms : List Mapping} (hne : segment ≠ []) (hcomma : ',' ∉ segment)
    (hsemicolon : ';' ∉ segment) (htext : AtBreak text)
    (h : decodeSegment sources names line segment column r = .ok (m, s))
    (hrest : readFrom sources names line m.generatedColumn s text = .ok ms) :
    readFrom sources names line column r (segment ++ text) = .ok (m :: ms) := by
  rw [readFrom_append sources names hne hcomma hsemicolon htext, h]
  simp only [hrest]

end SourceMap

end Sigil
