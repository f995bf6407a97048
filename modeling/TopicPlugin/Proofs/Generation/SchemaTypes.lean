import TopicPlugin.Proofs.Generation.FailFast
import TopicPlugin.Proofs.Namespace.CanonicalNames
import TopicPlugin.Proofs.Traversal

/-!
# The types that schemas write

The type of a message field in a schema is a qualified name. It is one that means the same
everywhere: resolved against the tree of the request from any scope, it gives the declaration that
the field's own reference gave inside the annotated message. This holds where the namespace of the
file binds the message's name to the message itself and has no namespace of that name below it.
-/

namespace TopicPlugin

open Dotted Namespace Namespace.Tree

/-- The scope of a file is the namespace of some path. -/
theorem File.exists_find?_scope (file : File) (t : Namespace.Tree Message) :
    ∃ path, t.find? path = some (file.scope t) := by
  cases hp : file.package.bind t.package? with
  | none =>
    refine ⟨[], ?_⟩
    rw [File.scope, hp]
    rfl
  | some id =>
    obtain ⟨package, -, hid⟩ := Option.bind_eq_some_iff.mp hp
    refine ⟨packageSegments package, ?_⟩
    rw [File.scope, hp]
    exact hid

theorem Kind.refersToMessage_iff (kind : Kind) :
    kind.refersToMessage = true ↔ kind = .message ∨ kind = .group := by
  cases kind <;> simp [refersToMessage]

namespace Schema

/-- What the reference of a field resolves to, as seen from the message of a context. -/
def target? (c : Context) (field : Field) : Option Resolved :=
  c.tree.resolveWithin c.scope c.message c.qualifiedName (field.typeName.getD "")

theorem fieldType_of_refersToMessage {c : Context} {field : Field}
    (h : field.kind.refersToMessage = true) :
    fieldType c field = ((target? c field).map (·.name)).elim
      (.error (.unresolvedReference (field.typeName.getD "") field.name c.qualifiedName)) .ok := by
  rw [target?]
  rcases (Kind.refersToMessage_iff field.kind).mp h with hkind | hkind
  · simp only [fieldType, hkind, Kind.scalarKeyword?]
    cases c.tree.resolveWithin c.scope c.message c.qualifiedName (field.typeName.getD "") <;> rfl
  · simp only [fieldType, hkind, Kind.scalarKeyword?]
    cases c.tree.resolveWithin c.scope c.message c.qualifiedName (field.typeName.getD "") <;> rfl

/-- The types of the other fields say nothing of the tree. -/
theorem fieldType_of_not_refersToMessage {c c' : Context} {field : Field}
    (h : ¬field.kind.refersToMessage = true) (hname : c.qualifiedName = c'.qualifiedName) :
    fieldType c field = fieldType c' field := by
  rw [fieldType, fieldType, hname]
  cases hkind : field.kind with
  | message => exact absurd (congrArg Kind.refersToMessage hkind) h
  | group => exact absurd (congrArg Kind.refersToMessage hkind) h
  | _ => rfl

/-- The entries of a schema are those of the fields, in order. -/
theorem entries_of_ofContext {c : Context} {schema : Schema} (h : ofContext c = .ok schema) :
    List.Forall₂ (fun field entry => ofField c field = .ok entry) c.message.fields
      schema.fields := by
  rw [ofContext, Traversal.map_eq_ok_iff] at h
  obtain ⟨entries, hentries, rfl⟩ := h
  exact Traversal.mapM_eq_ok_iff.mp hentries

theorem type_of_ofField {c : Context} {field : Field} {entry : FieldSchema}
    (h : ofField c field = .ok entry) : fieldType c field = .ok entry.type := by
  rw [ofField, Traversal.map_eq_ok_iff] at h
  obtain ⟨type, htype, rfl⟩ := h
  exact htype

end Schema

/-- The content that the schema formatter writes is that of a schema. -/
theorem Formatter.exists_schema_of_ok {c : Context} {content : String}
    (h : Formatter.schema c = .ok content) :
    ∃ schema, Schema.ofContext c = .ok schema ∧ content = schema.text := by
  rw [Formatter.schema, Traversal.map_eq_ok_iff] at h
  obtain ⟨schema, hschema, rfl⟩ := h
  exact ⟨schema, hschema, rfl⟩

/-- Every type written for a message field of an annotated message is the canonical name of what
the field's reference resolves to there, and the contents that are written consist of such types. -/
theorem schema_types_canonical {request : Request} {a : Annotated}
    (hdot : '.' ∉ a.message.name.toList)
    (hbound : request.tree.type? (a.file.scope request.tree) a.message.name = some a.message)
    (hchild : request.tree.child? (a.file.scope request.tree) a.message.name = none) :
    (∀ field type, field.kind.refersToMessage = true →
      Schema.fieldType (a.context request.tree) field = .ok type →
      ∃ resolved, Schema.target? (a.context request.tree) field = some resolved ∧
        resolved.name = type ∧ Canonical request.tree resolved) ∧
    ∀ content, Formatter.schema (a.context request.tree) = .ok content →
      ∃ schema, content = Schema.text schema ∧
        List.Forall₂ (fun field entry =>
          Schema.fieldType (a.context request.tree) field = .ok entry.type)
          a.message.fields schema.fields := by
  constructor
  · intro field type hkind htype
    rw [Schema.fieldType_of_refersToMessage hkind] at htype
    cases htarget : Schema.target? (a.context request.tree) field with
    | none =>
      rw [htarget, Option.map_none] at htype
      cases htype
    | some resolved =>
      rw [htarget, Option.map_some] at htype
      obtain ⟨path, hscope⟩ := a.file.exists_find?_scope request.tree
      refine ⟨resolved, rfl, Except.ok.inj htype, ?_⟩
      exact canonical_of_resolveWithin request.registrations hscope hdot hbound hchild htarget
  · intro content hcontent
    obtain ⟨schema, hschema, htext⟩ := Formatter.exists_schema_of_ok hcontent
    refine ⟨schema, htext, ?_⟩
    exact (Schema.entries_of_ofContext hschema).imp fun _ _ hentry =>
      Schema.type_of_ofField hentry

/-- A message whose field refers to a message two levels down inside it. -/
def envelopeMessage : Message where
  name := "Envelope"
  fields := [{ name := "part", kind := .message, typeName := some "Header.Part" }]
  nested := [{ name := "Header", nested := [{ name := "Part" }] }]
  options := some ⟨some ⟨some "topic"⟩⟩

/-- Beside it, the package has a message with the name of the first level. -/
def envelope : Annotated where
  position := 0
  file :=
    { name := "envelope.proto", package := some "p",
      messages := [{ name := "Header" }, envelopeMessage] }
  message := envelopeMessage
  topic := ⟨"topic", by decide⟩

def envelopeRequest : Request := { targets := ["envelope.proto"], files := [envelope.file] }

/-- The nested message hides the one of the package, and its name leads back to it. -/
theorem schema_types_canonical_shadowed :
    envelopeRequest.annotated = [envelope] ∧
    '.' ∉ envelope.message.name.toList ∧
    envelopeRequest.tree.type? (envelope.file.scope envelopeRequest.tree)
      envelope.message.name = some envelope.message ∧
    envelopeRequest.tree.child? (envelope.file.scope envelopeRequest.tree)
      envelope.message.name = none ∧
    ∃ field ∈ envelope.message.fields, ∃ resolved,
      Schema.target? (envelope.context envelopeRequest.tree) field = some resolved ∧
        resolved.name = ".p.Envelope.Header.Part" ∧ Canonical envelopeRequest.tree resolved := by
  have hdot : '.' ∉ envelope.message.name.toList := by decide
  have hbound : envelopeRequest.tree.type? (envelope.file.scope envelopeRequest.tree)
      envelope.message.name = some envelope.message := by rfl
  have hchild : envelopeRequest.tree.child? (envelope.file.scope envelopeRequest.tree)
      envelope.message.name = none := by rfl
  obtain ⟨htypes, -⟩ := schema_types_canonical hdot hbound hchild
  refine ⟨rfl, hdot, hbound, hchild, _, List.mem_cons_self, ?_⟩
  exact htypes _ ".p.Envelope.Header.Part" rfl (by decide)

end TopicPlugin
