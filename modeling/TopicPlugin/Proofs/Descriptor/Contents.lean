import TopicPlugin.Descriptor.Encode
import TopicPlugin.Descriptor.Response
import TopicPlugin.Proofs.Wire.Content

/-!
# Descriptors as contents of records

Each descriptor is a record with a slot for every number that its kind of record knows, and its
encoding is what a writer makes of that content. The levels of a descriptor are those of all the
records in it; the entries of a request for its files are at level one. The records of a response
are such records too, with a level for its files and none below.
-/

namespace TopicPlugin

open Wire

def Pipe.content (p : Pipe) : Content where
  slots := [.texts 1 p.topic.toList]
  nodup := List.nodup_singleton _

def Options.content (o : Options) : Content where
  slots := [.records pipeNumber (o.pipe.toList.map Pipe.content)]
  nodup := List.nodup_singleton _

def FieldDescriptor.content (d : FieldDescriptor) : Content where
  slots := [.texts 1 d.name.toList, .numbers 3 d.number.toList, .numbers 4 d.label.toList,
    .numbers 5 d.type.toList, .texts 6 d.typeName.toList]
  nodup := by simp [Slot.texts, Slot.numbers]

/-- The content of a message descriptor, whose nested descriptors are given by their contents. -/
def MessageDescriptor.contentOf (name : Option String) (fields : List FieldDescriptor)
    (nested : List Content) (options : Option Options) : Content where
  slots := [.texts 1 name.toList, .records 2 (fields.map FieldDescriptor.content),
    .records 3 nested, .records 7 (options.toList.map Options.content)]
  nodup := by simp [Slot.texts, Slot.records]

def MessageDescriptor.content : MessageDescriptor → Content
  | ⟨name, fields, nested, options⟩ => contentOf name fields (nested.map content) options

def FileDescriptor.content (d : FileDescriptor) : Content where
  slots := [.texts 1 d.name.toList, .texts 2 d.package.toList,
    .records 4 (d.messages.map MessageDescriptor.content)]
  nodup := by simp [Slot.texts, Slot.records]

def RequestDescriptor.content (d : RequestDescriptor) : Content where
  slots := [.texts 1 d.targets, .texts 2 d.parameter.toList,
    .records 15 (d.files.map FileDescriptor.content)]
  nodup := by simp [Slot.texts, Slot.records]

def FileRecord.toContent (f : FileRecord) : Content where
  slots := [.texts 1 f.name.toList, .texts 15 f.content.toList]
  nodup := by simp [Slot.texts]

def ResponseRecord.toContent (r : ResponseRecord) : Content where
  slots := [.texts 1 r.failure.toList, .words 2 r.features.toList,
    .records 15 (r.files.map FileRecord.toContent)]
  nodup := by simp [Slot.texts, Slot.words, Slot.records]

theorem encodeOption_none {α : Type} (encode : α → List UInt8) : encodeOption encode none = [] :=
  rfl

theorem encodeOption_some {α : Type} (encode : α → List UInt8) (a : α) :
    encodeOption encode (some a) = encode a :=
  rfl

theorem encodeOption_eq_flatten {α : Type} (encode : α → List UInt8) (value : Option α) :
    encodeOption encode value = (value.toList.map encode).flatten := by
  cases value with
  | none => rfl
  | some a => exact (List.append_nil _).symm

theorem Pipe.encode_content (p : Pipe) : p.content.encode = p.encode := by
  simp [Pipe.encode, encodeOption_eq_flatten, content, Content.encode_mk, Slot.encode_texts]

theorem Options.encode_content (o : Options) : o.content.encode = o.encode := by
  simp [Options.encode, encodeOption_eq_flatten, content, Content.encode_mk, Slot.encode_records,
    Pipe.encode_content, Function.comp_def]

theorem FieldDescriptor.encode_content (d : FieldDescriptor) : d.content.encode = d.encode := by
  simp [FieldDescriptor.encode, encodeOption_eq_flatten, content, Content.encode_mk,
    Slot.encode_texts, Slot.encode_numbers]

theorem MessageDescriptor.encode_content : (d : MessageDescriptor) → d.content.encode = d.encode
  | ⟨name, fields, nested, options⟩ => by
    have hnested : (nested.map fun inner => encodeEmbedded 3 inner.content.encode) =
        nested.map fun inner => encodeEmbedded 3 inner.encode :=
      List.map_congr_left fun inner _ => by rw [inner.encode_content]
    simp [MessageDescriptor.encode, encodeOption_eq_flatten, content, contentOf, Content.encode_mk,
      Slot.encode_texts, Slot.encode_records, FieldDescriptor.encode_content,
      Options.encode_content, Function.comp_def, hnested]

theorem FileDescriptor.encode_content (d : FileDescriptor) : d.content.encode = d.encode := by
  simp [FileDescriptor.encode, encodeOption_eq_flatten, content, Content.encode_mk,
    Slot.encode_texts, Slot.encode_records, MessageDescriptor.encode_content, Function.comp_def]

theorem RequestDescriptor.encode_content (d : RequestDescriptor) :
    d.content.encode = d.encode := by
  simp [RequestDescriptor.encode, encodeOption_eq_flatten, content, Content.encode_mk,
    Slot.encode_texts, Slot.encode_records, FileDescriptor.encode_content, Function.comp_def]

theorem FileRecord.encode_toContent (f : FileRecord) : f.toContent.encode = f.encode := by
  simp [FileRecord.encode, encodeOption_eq_flatten, toContent, Content.encode_mk,
    Slot.encode_texts]

theorem ResponseRecord.encode_toContent (r : ResponseRecord) : r.toContent.encode = r.encode := by
  simp [ResponseRecord.encode, encodeOption_eq_flatten, toContent, Content.encode_mk,
    Slot.encode_texts, Slot.encode_words, Slot.encode_records, FileRecord.encode_toContent,
    Function.comp_def]

def Pipe.levels (level : Nat) (_ : Pipe) : List Nat := [level]

def Options.levels (level : Nat) (o : Options) : List Nat :=
  level :: o.pipe.toList.flatMap (Pipe.levels (level + 1))

def FieldDescriptor.levels (level : Nat) (_ : FieldDescriptor) : List Nat := [level]

def MessageDescriptor.levels (level : Nat) : MessageDescriptor → List Nat
  | ⟨_, fields, nested, options⟩ =>
    level :: (fields.flatMap (FieldDescriptor.levels (level + 1))
      ++ nested.flatMap (levels (level + 1)) ++ options.toList.flatMap (Options.levels (level + 1)))

def FileDescriptor.levels (level : Nat) (d : FileDescriptor) : List Nat :=
  level :: d.messages.flatMap (MessageDescriptor.levels (level + 1))

/-- The levels of all records in a request. -/
def RequestDescriptor.levels (d : RequestDescriptor) : List Nat :=
  d.files.flatMap (FileDescriptor.levels 1)

theorem Pipe.cons_levels_content (level : Nat) (p : Pipe) :
    level :: p.content.levels level = p.levels level := by
  simp [levels, content, Content.levels_mk, Slot.levels_texts]

theorem Options.cons_levels_content (level : Nat) (o : Options) :
    level :: o.content.levels level = o.levels level := by
  simp [levels, content, Content.levels_mk, Slot.levels_records, List.flatMap_map,
    Pipe.cons_levels_content]

theorem FieldDescriptor.cons_levels_content (level : Nat) (d : FieldDescriptor) :
    level :: d.content.levels level = d.levels level := by
  simp [levels, content, Content.levels_mk, Slot.levels_texts, Slot.levels_numbers]

theorem MessageDescriptor.cons_levels_content (level : Nat) :
    (d : MessageDescriptor) → level :: d.content.levels level = d.levels level
  | ⟨name, fields, nested, options⟩ => by
    have hnested : (nested.flatMap fun inner => (level + 1) :: inner.content.levels (level + 1)) =
        nested.flatMap (levels (level + 1)) :=
      List.flatMap_congr fun inner _ => inner.cons_levels_content (level + 1)
    simp [levels, content, contentOf, Content.levels_mk, Slot.levels_texts, Slot.levels_records,
      List.flatMap_map, FieldDescriptor.cons_levels_content, Options.cons_levels_content, hnested]

theorem FileDescriptor.cons_levels_content (level : Nat) (d : FileDescriptor) :
    level :: d.content.levels level = d.levels level := by
  simp [levels, content, Content.levels_mk, Slot.levels_texts, Slot.levels_records,
    List.flatMap_map, MessageDescriptor.cons_levels_content]

theorem RequestDescriptor.levels_content (d : RequestDescriptor) :
    d.content.levels 0 = d.levels := by
  simp [levels, content, Content.levels_mk, Slot.levels_texts, Slot.levels_records,
    List.flatMap_map, FileDescriptor.cons_levels_content]

theorem ResponseRecord.eq_of_mem_levels {level l : Nat} {r : ResponseRecord}
    (h : l ∈ r.toContent.levels level) : l = level + 1 := by
  simp [toContent, FileRecord.toContent, Content.levels_mk, Slot.levels_texts, Slot.levels_words,
    Slot.levels_records] at h
  exact h.2

end TopicPlugin
