/-!
# Bytes and text
-/

namespace AnfWasm

abbrev Bytes := List UInt8

/-- the text in UTF-8 -/
def utf8 (s : String) : Bytes := s.toUTF8.data.toList

/-- the text that the bytes encode in UTF-8 -/
def utf8? (bs : Bytes) : Option String := String.fromUTF8? ⟨bs.toArray⟩

end AnfWasm
