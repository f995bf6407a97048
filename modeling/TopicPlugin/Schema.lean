import TopicPlugin.Formatter
import TopicPlugin.Json

/-!
# Topic schemas

The schema of an annotated message lists its fields in the order of their declaration, each with its
type: the keyword of a scalar, the qualified name of a message or group, or the reference to an enum
as it is written, since enums are not in the tree. The first field without a type fails the schema.
-/

namespace TopicPlugin

structure FieldSchema where
  name : String
  number : Int32
  label : Label
  type : String
  deriving DecidableEq, Repr

structure Schema where
  topic : String
  /-- The qualified name of the message. -/
  message : String
  fields : List FieldSchema
  deriving DecidableEq, Repr

namespace Schema

/-- The type of a field; a reference that is left out is the empty reference. -/
def fieldType (c : Context) (field : Field) : Except Failure String :=
  match field.kind with
  | .enum => .ok (field.typeName.getD "")
  | .unknown code =>
    .error (.format c.qualifiedName
      ("field `" ++ field.name ++ "` has unknown type code " ++ Text.decimal code.toInt))
  | kind =>
    match kind.scalarKeyword? with
    | some keyword => .ok keyword
    | none =>
      let reference := field.typeName.getD ""
      match c.tree.resolveWithin c.scope c.message c.qualifiedName reference with
      | some resolved => .ok resolved.name
      | none => .error (.unresolvedReference reference field.name c.qualifiedName)

def ofField (c : Context) (field : Field) : Except Failure FieldSchema :=
  (fieldType c field).map fun type => ⟨field.name, field.number, field.label, type⟩

def ofContext (c : Context) : Except Failure Schema :=
  (c.message.fields.mapM (ofField c)).map fun fields => ⟨c.topic.text, c.qualifiedName, fields⟩

def fieldJson (field : FieldSchema) : Json :=
  .object [("name", .string field.name), ("number", .number field.number.toInt),
    ("label", .string field.label.keyword), ("type", .string field.type)]

def toJson (schema : Schema) : Json :=
  .object [("topic", .string schema.topic), ("message", .string schema.message),
    ("fields", .array (schema.fields.map fieldJson))]

/-- The document ends its last line. -/
def text (schema : Schema) : String := schema.toJson.text ++ "\n"

end Schema

/-- Writes the schema of the message. -/
def Formatter.schema : Formatter := fun c => (Schema.ofContext c).map Schema.text

end TopicPlugin
