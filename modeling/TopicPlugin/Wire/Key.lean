import TopicPlugin.Wire.Varint

/-!
# Field keys

A field starts with a key, a varint that holds the number of the field and, in its lowest three bits,
the wire type of the payload.
-/

namespace TopicPlugin.Wire

structure Key where
  number : Nat
  type : WireType
  deriving DecidableEq, Repr

namespace Key

def encode (key : Key) : List UInt8 := Varint.encode (8 * key.number + key.type.code)

/-- The key with a code; its size is checked first, then its wire type, then its number. -/
def ofCode (code : Nat) : Except Cause Key :=
  if 0xFFFFFFFF < code then .error (.invalidKey code)
  else match WireType.ofCode? (code % 8) with
    | none => .error (.unknownWireType (code % 8))
    | some type => if code / 8 = 0 then .error .zeroFieldNumber else .ok ⟨code / 8, type⟩

def read : Reader Key := do
  let code ← Varint.read
  match ofCode code with
  | .error cause => Reader.fail cause
  | .ok key => pure key

theorem read_size_lt {i r : Input} {key : Key} (h : read.run i = .ok (key, r)) :
    r.size < i.size := by
  rw [read, Reader.run_bind] at h
  cases hv : Varint.read.run i with
  | error e => simp [hv] at h
  | ok nr =>
    obtain ⟨n, m⟩ := nr
    simp only [hv] at h
    exact Nat.lt_of_le_of_lt (Reader.size_le _ h) (Varint.readUpTo_size_lt hv)

theorem ofCode_encode {key : Key} (hpos : 0 < key.number) (hlt : key.number < 0x20000000) :
    ofCode (8 * key.number + key.type.code) = .ok key := by
  have htype := key.type.code_le
  rw [ofCode, if_neg (by omega), show (8 * key.number + key.type.code) % 8 = key.type.code by omega,
    WireType.ofCode?_code]
  simp only
  rw [show (8 * key.number + key.type.code) / 8 = key.number by omega, if_neg (by omega)]

/-- A field of a known number has to have its own wire type. -/
def expect (key : Key) (type : WireType) : Reader Unit :=
  Reader.check (key.type = type) (.wrongWireType key.type type)

end Key

end TopicPlugin.Wire
