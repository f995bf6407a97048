import TopicPlugin.Text.Decimal

/-!
# What can be wrong with a wire message

A fault in a wire message has a cause and the fields that were being decoded when it was met, the
innermost first.
-/

namespace TopicPlugin.Wire

/-- How the payload of a field is laid out. -/
inductive WireType where
  | varint
  | sixtyFourBit
  | lengthDelimited
  | startGroup
  | endGroup
  | thirtyTwoBit
  deriving DecidableEq, Repr

namespace WireType

def code : WireType → Nat
  | .varint => 0
  | .sixtyFourBit => 1
  | .lengthDelimited => 2
  | .startGroup => 3
  | .endGroup => 4
  | .thirtyTwoBit => 5

def ofCode? : Nat → Option WireType
  | 0 => some .varint
  | 1 => some .sixtyFourBit
  | 2 => some .lengthDelimited
  | 3 => some .startGroup
  | 4 => some .endGroup
  | 5 => some .thirtyTwoBit
  | _ => none

def name : WireType → String
  | .varint => "Varint"
  | .sixtyFourBit => "SixtyFourBit"
  | .lengthDelimited => "LengthDelimited"
  | .startGroup => "StartGroup"
  | .endGroup => "EndGroup"
  | .thirtyTwoBit => "ThirtyTwoBit"

theorem ofCode?_code (type : WireType) : ofCode? type.code = some type := by
  cases type <;> rfl

theorem code_of_ofCode? {code : Nat} {type : WireType} (h : ofCode? code = some type) :
    type.code = code := by
  unfold ofCode? at h
  split at h <;> cases h <;> rfl

theorem code_le (type : WireType) : type.code ≤ 5 := by
  cases type <;> decide

end WireType

inductive Cause where
  | invalidVarint
  | invalidKey (value : Nat)
  | unknownWireType (code : Nat)
  | zeroFieldNumber
  | wrongWireType (actual expected : WireType)
  | underflow
  | notUtf8
  | lengthExceeded
  | recursionLimit
  | unexpectedEndGroup
  deriving DecidableEq, Repr

def Cause.message : Cause → String
  | .invalidVarint => "invalid varint"
  | .invalidKey value => "invalid key value: " ++ Text.decimal value
  | .unknownWireType code => "invalid wire type value: " ++ Text.decimal code
  | .zeroFieldNumber => "invalid tag value: 0"
  | .wrongWireType actual expected =>
    "invalid wire type: " ++ actual.name ++ " (expected " ++ expected.name ++ ")"
  | .underflow => "buffer underflow"
  | .notUtf8 => "invalid string value: data is not UTF-8 encoded"
  | .lengthExceeded => "delimited length exceeded"
  | .recursionLimit => "recursion limit reached"
  | .unexpectedEndGroup => "unexpected end group tag"

/-- A field of a kind of message. -/
structure Place where
  record : String
  field : String
  deriving DecidableEq, Repr

structure DecodeError where
  cause : Cause
  /-- The fields around the fault, the innermost first. -/
  places : List Place := []
  deriving DecidableEq, Repr

namespace DecodeError

/-- The error as it is seen from one field further out. -/
def within (place : Place) (e : DecodeError) : DecodeError :=
  { e with places := e.places ++ [place] }

def message (e : DecodeError) : String :=
  "failed to decode Protobuf message: "
    ++ String.join (e.places.map fun place => place.record ++ "." ++ place.field ++ ": ")
    ++ e.cause.message

end DecodeError

end TopicPlugin.Wire
