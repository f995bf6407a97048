import TopicPlugin.Text.Decimal

/-!
# Field declarations

A field has a name, a number, a label and a kind. Labels and kinds are given by numeric codes: an
unknown label code means optional, and an unknown kind code is kept as it is.
-/

namespace TopicPlugin

inductive Label where
  | optional
  | required
  | repeated
  deriving DecidableEq, Repr, Inhabited

namespace Label

/-- Two means required, three repeated, and anything else optional. -/
def ofCode (code : Int32) : Label :=
  if code = 2 then .required else if code = 3 then .repeated else .optional

def keyword : Label → String
  | .optional => "optional"
  | .required => "required"
  | .repeated => "repeated"

end Label

inductive Kind where
  | double
  | float
  | int64
  | uint64
  | int32
  | fixed64
  | fixed32
  | bool
  | string
  | group
  | message
  | bytes
  | uint32
  | enum
  | sfixed32
  | sfixed64
  | sint32
  | sint64
  | unknown (code : Int32)
  deriving DecidableEq, Repr

namespace Kind

/-- The kinds with a code, which count from one. -/
def coded : List Kind :=
  [.double, .float, .int64, .uint64, .int32, .fixed64, .fixed32, .bool, .string, .group, .message,
   .bytes, .uint32, .enum, .sfixed32, .sfixed64, .sint32, .sint64]

def ofCode (code : Int32) : Kind :=
  if 1 ≤ code.toInt then coded.getD (code.toInt.toNat - 1) (.unknown code) else .unknown code

/-- The keyword of a scalar kind; the other kinds are written by the type they refer to. -/
def scalarKeyword? : Kind → Option String
  | .double => some "double"
  | .float => some "float"
  | .int64 => some "int64"
  | .uint64 => some "uint64"
  | .int32 => some "int32"
  | .fixed64 => some "fixed64"
  | .fixed32 => some "fixed32"
  | .bool => some "bool"
  | .string => some "string"
  | .bytes => some "bytes"
  | .uint32 => some "uint32"
  | .sfixed32 => some "sfixed32"
  | .sfixed64 => some "sfixed64"
  | .sint32 => some "sint32"
  | .sint64 => some "sint64"
  | .group | .message | .enum | .unknown _ => none

/-- Whether the field's type is a declared message. -/
def refersToMessage : Kind → Bool
  | .message | .group => true
  | _ => false

end Kind

structure Field where
  name : String
  number : Int32 := 0
  label : Label := .optional
  kind : Kind
  /-- The type that a message, group or enum field refers to, as it is written. -/
  typeName : Option String := none
  deriving DecidableEq, Repr

end TopicPlugin
