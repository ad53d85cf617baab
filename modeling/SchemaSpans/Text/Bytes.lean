/-!
Text as bytes. Descriptor texts are read byte by byte, and keys are ordered by
their bytes, so both the reader and the key order rest on this view of a string.
-/

namespace SchemaSpans.Text

/-- The UTF-8 bytes of a string, in order. -/
def bytes (s : String) : List UInt8 :=
  s.toByteArray.data.toList

/-- The string with exactly these UTF-8 bytes, if they are well formed. -/
def ofBytes? (bs : List UInt8) : Option String :=
  String.fromUTF8? ⟨bs.toArray⟩

/--
The string with these UTF-8 bytes, empty when they are malformed. A part of a
string's bytes that is cut next to ASCII bytes is never malformed.
-/
def ofBytes (bs : List UInt8) : String :=
  (ofBytes? bs).getD ""

/-- Strings are read back from their bytes. -/
theorem ofBytes?_bytes (s : String) : ofBytes? (bytes s) = some s := by
  have hs : (⟨(bytes s).toArray⟩ : ByteArray) = s.toByteArray := by
    simp [bytes]
  simp only [ofBytes?, hs, String.fromUTF8?, dif_pos s.isValidUTF8]
  rfl

@[simp] theorem ofBytes_bytes (s : String) : ofBytes (bytes s) = s := by
  simp [ofBytes, ofBytes?_bytes]

/-- Two strings with the same bytes are the same string. -/
theorem bytes_injective {s t : String} (h : bytes s = bytes t) : s = t := by
  rw [← ofBytes_bytes s, h, ofBytes_bytes]

@[simp] theorem bytes_append (s t : String) : bytes (s ++ t) = bytes s ++ bytes t := by
  simp [bytes]

/-- A text made of characters has the bytes of its characters, one after another. -/
theorem bytes_ofList (cs : List Char) :
    bytes (String.ofList cs) = cs.flatMap String.utf8EncodeChar := by
  simp [bytes, List.utf8Encode]

/-- One key comes before another when its bytes do, read as a dictionary would. -/
def precedes (s t : String) : Bool :=
  decide (bytes s < bytes t)

end SchemaSpans.Text
