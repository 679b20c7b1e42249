/-!
Text as the bytes of its UTF-8 encoding.

Every offset of the library counts bytes, so the working form of a text is a
list of bytes.  `encode` and `decode` lead from strings to bytes and back; a
range of bytes that cuts a character has no string and decodes to the empty one.
-/

set_option autoImplicit false

namespace SchemeLayout

abbrev Bytes := List UInt8

def encode (text : String) : Bytes := text.toByteArray.data.toList

/-- The string with these bytes, if they are the encoding of one. -/
def decode? (bytes : Bytes) : Option String := String.fromUTF8? ⟨bytes.toArray⟩

/-- The string with these bytes, empty when they are no encoding. -/
def decode (bytes : Bytes) : String := (decode? bytes).getD ""

@[simp] theorem decode?_encode (text : String) : decode? (encode text) = some text := by
  simp [decode?, encode, String.fromUTF8?, String.fromUTF8, text.isValidUTF8]

@[simp] theorem decode_encode (text : String) : decode (encode text) = text := by
  simp [decode]

theorem encode_of_decode? {bytes : Bytes} {text : String}
    (decoded : decode? bytes = some text) : encode text = bytes := by
  unfold decode? String.fromUTF8? at decoded
  split at decoded
  · cases decoded
    simp [encode, String.fromUTF8]
  · contradiction

@[simp] theorem encode_append (left right : String) :
    encode (left ++ right) = encode left ++ encode right := by
  simp [encode, ByteArray.data_append]

/-- Bytes that continue a character begun by an earlier byte. -/
def isContinuation (byte : UInt8) : Bool := 0x80 ≤ byte && byte < 0xC0

/-- Number of bytes of the character that starts with `lead`.  A byte that
starts no character counts as one of its own. -/
def charWidth (lead : UInt8) : Nat :=
  if lead < 0xC0 then 1
  else if lead < 0xE0 then 2
  else if lead < 0xF0 then 3
  else if lead < 0xF8 then 4
  else 1

end SchemeLayout
