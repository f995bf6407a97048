import TopicPlugin.Proofs.Generation.SchemaFaults
import TopicPlugin.Proofs.Json.Layout

/-!
# The content of schemas

The content that is written for a schema is one JSON document and the end of its line. The document
is that of one value only, from which the schema is read off again: different schemas have different
contents, whatever characters are in their names.
-/

namespace TopicPlugin

theorem Label.keyword_injective : Function.Injective Label.keyword := by
  intro label other h
  cases label <;> cases other <;> simp_all [keyword]

namespace Schema

theorem fieldJson_injective : Function.Injective fieldJson := by
  intro field other h
  obtain ⟨name, number, label, type⟩ := field
  obtain ⟨name', number', label', type'⟩ := other
  simp only [fieldJson, Json.object.injEq, List.cons.injEq, Prod.mk.injEq, Json.string.injEq,
    Json.number.injEq, true_and, and_true] at h
  obtain ⟨rfl, hnumber, hlabel, rfl⟩ := h
  rw [Int32.toInt_inj.mp hnumber, Label.keyword_injective hlabel]

theorem toJson_injective : Function.Injective toJson := by
  intro schema other h
  obtain ⟨topic, message, fields⟩ := schema
  obtain ⟨topic', message', fields'⟩ := other
  simp only [toJson, Json.object.injEq, List.cons.injEq, Prod.mk.injEq, Json.string.injEq,
    Json.array.injEq, true_and, and_true] at h
  obtain ⟨rfl, rfl, hfields⟩ := h
  rw [fieldJson_injective.list_map hfields]

theorem space_lineEnd : Json.Space "\n".toList := by
  intro c hc
  rw [List.mem_singleton.mp hc]
  rfl

/-- A schema is read off its content. -/
theorem text_injective : Function.Injective text := by
  intro schema other h
  have hdocument := (Json.document_text_iff schema.toJson schema.toJson space_lineEnd).mpr rfl
  rw [← text, h, text, Json.document_text_iff other.toJson schema.toJson space_lineEnd] at hdocument
  exact toJson_injective hdocument

theorem getLast?_text_toJson (schema : Schema) :
    schema.toJson.text.toList.getLast? = some '\x7d' := by
  rw [toJson, Json.text, String.toList_ofList, Json.chars, List.getLast?_concat]

/-- The object that is written for a field with a type. -/
inductive FieldObject (c : Context) (field : Field) : Json → Prop
  | mk {type : String} (h : HasType c field type) :
      FieldObject c field (.object [("name", .string field.name),
        ("number", .number field.number.toInt), ("label", .string field.label.keyword),
        ("type", .string type)])

theorem fieldObject_fieldJson {c : Context} {field : Field} {entry : FieldSchema}
    (h : EntryOf c field entry) : FieldObject c field (fieldJson entry) := by
  obtain ⟨hname, hnumber, hlabel, htype⟩ := h
  rw [fieldJson, hname, hnumber, hlabel]
  exact .mk htype

end Schema

/-- The content of a schema is a document and the end of its line. The document is that of an object
with the topic, the name of the message and one object for each field, and of no other value; and
schemas with the same content are the same. -/
theorem Formatter.schema_content_faithful {c : Context} {content : String}
    (h : Formatter.schema c = .ok content) :
    ∃ (document : String) (entries : List Json),
      content = document ++ "\n" ∧ document.toList.getLast? = some '\x7d' ∧
      List.Forall₂ (Schema.FieldObject c) c.message.fields entries ∧
      (∀ value, Json.Document value document.toList ↔
        value = .object [("topic", .string c.topic.text), ("message", .string c.qualifiedName),
          ("fields", .array entries)]) ∧
      Json.read content = some (.object [("topic", .string c.topic.text),
        ("message", .string c.qualifiedName), ("fields", .array entries)]) ∧
      ∀ schema other : Schema, schema ≠ other → schema.text ≠ other.text := by
  obtain ⟨schema, hschema, rfl⟩ := Formatter.exists_schema_of_ok h
  obtain ⟨htopic, hmessage, hentries⟩ := (Schema.ofContext_eq_ok_iff c schema).mp hschema
  have hvalue : schema.toJson = .object [("topic", .string c.topic.text),
      ("message", .string c.qualifiedName),
      ("fields", .array (schema.fields.map Schema.fieldJson))] := by
    rw [Schema.toJson, htopic, hmessage]
  refine ⟨schema.toJson.text, schema.fields.map Schema.fieldJson, rfl,
    schema.getLast?_text_toJson, ?_, fun value => ?_, ?_, fun _ _ => Schema.text_injective.ne⟩
  · exact List.forall₂_map_right_iff.mpr (hentries.imp fun _ _ => Schema.fieldObject_fieldJson)
  · rw [← hvalue]
    have hspace : Json.Space "".toList := Json.space_nil
    have hdocument := Json.document_text_iff schema.toJson value hspace
    rwa [String.append_empty] at hdocument
  · rw [← hvalue]
    exact Json.read_of_document
      ((Json.document_text_iff schema.toJson schema.toJson Schema.space_lineEnd).mpr rfl)

/-- A message with quotation marks, backslashes, marks of JSON and control characters in its
names. -/
def hostileMessage : Message where
  name := "\",\"fields\": []\x7d"
  fields := [
    { name := "\\u0000\x00", number := -2147483648, label := .repeated, kind := .sint32 },
    { name := "\x7f\t", number := -1, kind := .enum, typeName := some "é😀\n\x1f\\" }]
  options := some ⟨some ⟨some "\"]"⟩⟩

def hostile : Context where
  file := { name := "hostile.proto", messages := [hostileMessage] }
  message := hostileMessage
  topic := ⟨"\"]", by decide⟩
  scope := 0
  tree := .empty

theorem schema_content_faithful_hostile :
    ∃ content, Formatter.schema hostile = .ok content ∧
      Json.read content = some (.object [("topic", .string "\"]"),
        ("message", .string ".\",\"fields\": []\x7d"),
        ("fields", .array [
          .object [("name", .string "\\u0000\x00"), ("number", .number (-2147483648)),
            ("label", .string "repeated"), ("type", .string "sint32")],
          .object [("name", .string "\x7f\t"), ("number", .number (-1)),
            ("label", .string "optional"), ("type", .string "é😀\n\x1f\\")]])]) := by
  obtain ⟨content, hcontent⟩ : ∃ content, Formatter.schema hostile = .ok content := ⟨_, rfl⟩
  obtain ⟨-, entries, -, -, hentries, -, hread, -⟩ := Formatter.schema_content_faithful hcontent
  obtain _ | ⟨⟨hfirst⟩, _ | ⟨⟨hsecond⟩, _ | _⟩⟩ := hentries
  obtain rfl := Except.ok.inj ((Schema.fieldType_of_hasType hfirst).symm.trans rfl)
  obtain rfl := Except.ok.inj ((Schema.fieldType_of_hasType hsecond).symm.trans rfl)
  exact ⟨content, hcontent, hread⟩

end TopicPlugin
