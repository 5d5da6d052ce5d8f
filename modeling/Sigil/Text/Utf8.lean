import Sigil.Text

/-!
# Text/Utf8 — texts as bytes

`encode` and `decode?` are inverse to each other: every text is read back from its bytes, and bytes
that are read as a text are that text's bytes.
-/

namespace Sigil.Text

/-- The bytes of a text. -/
def encode (t : Text) : ByteArray := (String.ofList t).toUTF8

/-- The text of some bytes, if they are the bytes of a text. -/
def decode? (bytes : ByteArray) : Option Text := (String.fromUTF8? bytes).map String.toList

/-- **A text is read back from its bytes.** -/
theorem decode?_encode (t : Text) : decode? (encode t) = some t := by
  have h : String.fromUTF8? (String.ofList t).toUTF8 = some (String.ofList t) :=
    dif_pos (String.ofList t).isValidUTF8
  rw [decode?, encode, h]
  simp

/-- **Bytes that are read as a text are its bytes.** -/
theorem encode_of_decode? {bytes : ByteArray} {t : Text} (h : decode? bytes = some t) :
    encode t = bytes := by
  obtain ⟨s, hs, rfl⟩ := Option.map_eq_some_iff.1 h
  rw [String.fromUTF8?] at hs
  split at hs
  · obtain rfl := Option.some.inj hs
    simp [encode, String.fromUTF8]
  · simp at hs

end Sigil.Text
