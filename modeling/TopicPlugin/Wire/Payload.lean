import TopicPlugin.Wire.Key

/-!
# Payloads of single fields

Texts and whole numbers, each with the wire type that it has to have. A text is given back by its
bytes, and a whole number with a sign by its 64 bits.
-/

namespace TopicPlugin.Wire

/-- The bytes as text, if they are UTF-8. -/
def textOfBytes? (bytes : List UInt8) : Option String :=
  String.fromUTF8? ⟨bytes.toArray⟩

def bytesOfText (text : String) : List UInt8 := text.toUTF8.data.toList

def readText (key : Key) : Reader String := do
  key.expect .lengthDelimited
  let length ← Varint.read
  let bytes ← Reader.take length
  match textOfBytes? bytes with
  | none => Reader.fail .notUtf8
  | some text => pure text

/-- A whole number of 32 bits with a sign; the upper bits of a longer varint are dropped. -/
def readInt32 (key : Key) : Reader Int32 := do
  key.expect .varint
  let n ← Varint.read
  pure (UInt32.ofNat n).toInt32

def readUInt64 (key : Key) : Reader UInt64 := do
  key.expect .varint
  let n ← Varint.read
  pure (UInt64.ofNat n)

def encodeText (number : Nat) (text : String) : List UInt8 :=
  Key.encode ⟨number, .lengthDelimited⟩ ++ Varint.encode (bytesOfText text).length
    ++ bytesOfText text

/-- A negative number takes the form of its 64 bits. -/
def encodeInt32 (number : Nat) (value : Int32) : List UInt8 :=
  Key.encode ⟨number, .varint⟩ ++ Varint.encode value.toInt64.toUInt64.toNat

def encodeUInt64 (number : Nat) (value : UInt64) : List UInt8 :=
  Key.encode ⟨number, .varint⟩ ++ Varint.encode value.toNat

/-- Writes a field that may be left out. -/
def encodeOption {α : Type} (encode : α → List UInt8) (value : Option α) : List UInt8 :=
  value.elim [] encode

theorem textOfBytes?_bytesOfText (text : String) : textOfBytes? (bytesOfText text) = some text := by
  have hbytes : (⟨(bytesOfText text).toArray⟩ : ByteArray) = text.toByteArray := by
    simp [bytesOfText]
  rw [textOfBytes?, String.fromUTF8?, dif_pos (hbytes ▸ text.isValidUTF8)]
  exact congrArg some (String.toByteArray_inj.mp hbytes)

theorem reads_expect {key : Key} {type : WireType} (h : key.type = type) :
    Reader.Reads (key.expect type) () [] :=
  Reader.reads_check _ h

theorem toInt32_ofNat_toUInt64 (value : Int32) :
    (UInt32.ofNat value.toInt64.toUInt64.toNat).toInt32 = value := by
  have h := congrArg Int32.toBitVec (Int32.toInt32_toInt64 value)
  refine Int32.toBitVec_inj.mp (Eq.trans ?_ h)
  exact (BitVec.signExtend_eq_setWidth_of_le value.toInt64.toBitVec (by decide : 32 ≤ 64)).symm

end TopicPlugin.Wire
