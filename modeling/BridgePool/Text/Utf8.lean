import BridgePool.Bytes

/-!
# Text as bytes

A string is its UTF-8 bytes: `utf8` takes them out, `ofUtf8?` puts them back and refuses every
byte string that no text has (`ofUtf8?_utf8`, `utf8_injective`).
-/

namespace BridgePool

/-- The UTF-8 bytes of a text. -/
def utf8 (s : String) : Bytes :=
  s.toByteArray.data.toList

/-- The text with these UTF-8 bytes, if there is one. -/
def ofUtf8? (b : Bytes) : Option String :=
  String.fromUTF8? ⟨b.toArray⟩

theorem ofUtf8?_utf8 (s : String) : ofUtf8? (utf8 s) = some s := by
  have valid := s.isValidUTF8
  simp [ofUtf8?, utf8, String.fromUTF8?, String.fromUTF8, valid]

theorem utf8_injective {s t : String} (h : utf8 s = utf8 t) : s = t := by
  have both := ofUtf8?_utf8 s
  rw [h, ofUtf8?_utf8] at both
  exact (Option.some.inj both).symm

end BridgePool
