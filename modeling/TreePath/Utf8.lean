/-!
# Text as bytes

The bytes of a text in UTF-8, and the text that bytes stand for.  Decoding accepts what encoding
produces and nothing else.
-/

set_option autoImplicit false

namespace TreePath

namespace Utf8

/-- The bytes of a text. -/
def encode (text : String) : List UInt8 := text.toByteArray.data.toList

/-- The text that the bytes stand for, unless they are no UTF-8. -/
def decode? (bytes : List UInt8) : Option String := String.fromUTF8? bytes.toByteArray

/-- What is encoded can be decoded. -/
theorem decode?_encode (text : String) : decode? (encode text) = some text := by
  have h : text.toByteArray.data.toList.toByteArray = text.toByteArray := by
    apply ByteArray.ext
    simp [List.data_toByteArray]
  simp [decode?, encode, h, String.fromUTF8?, text.isValidUTF8, String.fromUTF8]

end Utf8

end TreePath
