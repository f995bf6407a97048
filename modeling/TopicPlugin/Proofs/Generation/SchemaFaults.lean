import TopicPlugin.Proofs.Generation.SchemaTypes

/-!
# The first field without a type

A field either has a type or has a fault, by its kind and, for messages and groups, by what its
reference resolves to. The schema of a message fails exactly if one of its fields has a fault, and
reports the first that has one, whatever comes after it. Otherwise it has one entry for each field.
-/

namespace TopicPlugin

/-- A kind is that of a scalar, of an enum or of a message, or it is not known. -/
theorem Kind.cases (kind : Kind) :
    (∃ keyword, kind.scalarKeyword? = some keyword) ∨ kind = .enum ∨ kind.refersToMessage = true ∨
      ∃ code, kind = .unknown code := by
  cases kind <;> simp [scalarKeyword?, refersToMessage]

namespace Schema

/-- How the type of a field is written. -/
inductive HasType (c : Context) (field : Field) : String → Prop
  | scalar {keyword : String} (h : field.kind.scalarKeyword? = some keyword) :
      HasType c field keyword
  | enum (h : field.kind = .enum) : HasType c field (field.typeName.getD "")
  | message {resolved : Namespace.Resolved} (h : field.kind = .message ∨ field.kind = .group)
      (htarget : target? c field = some resolved) : HasType c field resolved.name

/-- Why a field has no type. -/
inductive HasFault (c : Context) (field : Field) : Failure → Prop
  | unknown {code : Int32} (h : field.kind = .unknown code) :
      HasFault c field (.format c.qualifiedName
        ("field `" ++ field.name ++ "` has unknown type code " ++ Text.decimal code.toInt))
  | unresolved (h : field.kind = .message ∨ field.kind = .group)
      (htarget : target? c field = none) :
      HasFault c field
        (.unresolvedReference (field.typeName.getD "") field.name c.qualifiedName)

section

variable {c : Context} {field : Field}

theorem fieldType_of_hasType {type : String} (h : HasType c field type) :
    fieldType c field = .ok type := by
  cases h with
  | scalar hkind =>
    rw [fieldType]
    cases hfield : field.kind <;> rw [hfield, Kind.scalarKeyword?] at hkind <;> cases hkind <;> rfl
  | enum hkind => simp only [fieldType, hkind]
  | message hkind htarget =>
    rw [fieldType_of_refersToMessage ((Kind.refersToMessage_iff _).mpr hkind), htarget]
    rfl

theorem fieldType_of_hasFault {failure : Failure} (h : HasFault c field failure) :
    fieldType c field = .error failure := by
  cases h with
  | unknown hkind => simp only [fieldType, hkind]
  | unresolved hkind htarget =>
    rw [fieldType_of_refersToMessage ((Kind.refersToMessage_iff _).mpr hkind), htarget]
    rfl

variable (c field)

theorem hasType_or_hasFault :
    (∃ type, HasType c field type) ∨ ∃ failure, HasFault c field failure := by
  rcases field.kind.cases with ⟨keyword, hkind⟩ | hkind | hkind | ⟨code, hkind⟩
  · exact .inl ⟨keyword, .scalar hkind⟩
  · exact .inl ⟨_, .enum hkind⟩
  · have hmessage := (Kind.refersToMessage_iff _).mp hkind
    cases htarget : target? c field with
    | none => exact .inr ⟨_, .unresolved hmessage htarget⟩
    | some resolved => exact .inl ⟨_, .message hmessage htarget⟩
  · exact .inr ⟨_, .unknown hkind⟩

theorem fieldType_eq_ok_iff (type : String) :
    fieldType c field = .ok type ↔ HasType c field type := by
  refine ⟨fun h => ?_, fieldType_of_hasType⟩
  rcases hasType_or_hasFault c field with ⟨other, htype⟩ | ⟨failure, hfault⟩
  · rw [fieldType_of_hasType htype] at h
    exact Except.ok.inj h ▸ htype
  · rw [fieldType_of_hasFault hfault] at h
    cases h

/-- The entry of a field repeats its name, number and label, and writes its type. -/
structure EntryOf (entry : FieldSchema) : Prop where
  name_eq : entry.name = field.name
  number_eq : entry.number = field.number
  label_eq : entry.label = field.label
  hasType : HasType c field entry.type

theorem ofField_eq_ok_iff (entry : FieldSchema) :
    ofField c field = .ok entry ↔ EntryOf c field entry := by
  rw [ofField, Traversal.map_eq_ok_iff]
  constructor
  · rintro ⟨type, htype, rfl⟩
    exact ⟨rfl, rfl, rfl, (fieldType_eq_ok_iff c field type).mp htype⟩
  · intro h
    obtain ⟨hname, hnumber, hlabel, htype⟩ := h
    refine ⟨entry.type, (fieldType_eq_ok_iff c field _).mpr htype, ?_⟩
    rw [← hname, ← hnumber, ← hlabel]

end

theorem ofContext_eq_ok_iff (c : Context) (schema : Schema) :
    ofContext c = .ok schema ↔ schema.topic = c.topic.text ∧ schema.message = c.qualifiedName ∧
      List.Forall₂ (EntryOf c) c.message.fields schema.fields := by
  have hentries : (fun field entry => ofField c field = .ok entry) = EntryOf c := by
    funext field entry
    exact propext (ofField_eq_ok_iff c field entry)
  rw [ofContext, Traversal.map_eq_ok_iff]
  constructor
  · rintro ⟨entries, hfields, rfl⟩
    exact ⟨rfl, rfl, hentries ▸ Traversal.mapM_eq_ok_iff.mp hfields⟩
  · intro h
    obtain ⟨htopic, hmessage, hfields⟩ := h
    rw [← hentries] at hfields
    refine ⟨schema.fields, Traversal.mapM_eq_ok_iff.mpr hfields, ?_⟩
    rw [← htopic, ← hmessage]

end Schema

-- A field behind the one that fails has a fault of the other kind.
example :
    Formatter.schema
      { file := { name := "f.proto" }
        message :=
          { name := "M"
            fields := [{ name := "a", kind := .int32 },
              { name := "b", kind := .group, typeName := some ".Missing" },
              { name := "c", kind := .unknown 99 }] }
        topic := ⟨"t", by decide⟩
        scope := 0
        tree := .empty } =
      .error (.unresolvedReference ".Missing" "b" ".M") := by
  rfl

end TopicPlugin
