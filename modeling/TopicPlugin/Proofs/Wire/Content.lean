import Mathlib.Data.List.Forall2
import Mathlib.Data.List.Nodup
import TopicPlugin.Proofs.Wire.Forms
import TopicPlugin.Wire.Record

/-!
# What a record may hold, and its serializations

The content of a record gives, for each number that the record knows, the values under that number
in their order. A serialization of the content is any arrangement of its fields in which the values
of each number stay in order, with fields of other numbers anywhere in between; the writer's own
arrangement goes by slots and is the shortest.
-/

namespace TopicPlugin.Wire

/-- A value that a field may carry, with the payload that a writer chooses for it. Other payloads
may stand for it too; which ones, and at which levels its records lie, depends on the level of the
record around it. -/
structure Value where
  payload : List UInt8
  Form : Nat → List UInt8 → Prop
  levels : Nat → List Nat
  form_payload : ∀ level, payload.length < 0x10000000000000000 → Form level payload
  length_payload_le : ∀ {level bytes}, Form level bytes → payload.length ≤ bytes.length

/-- The values of a record under one number. -/
structure Slot where
  number : Nat
  type : WireType
  values : List Value
  number_pos : 0 < number
  number_lt : number < 0x20000000

/-- The values of a record under all the numbers that it knows. -/
structure Content where
  slots : List Slot
  nodup : (slots.map (·.number)).Nodup

/-- A field as it stands in a record. -/
structure Occurrence where
  key : Key
  head : List UInt8
  payload : List UInt8

namespace Occurrence

def bytes (f : Occurrence) : List UInt8 := f.head ++ f.payload

/-- The fields with a number. -/
def numbered (fields : List Occurrence) (number : Nat) : List Occurrence :=
  fields.filter (·.key.number = number)

/-- The fields with any other number. -/
def others (fields : List Occurrence) (number : Nat) : List Occurrence :=
  fields.filter (·.key.number ≠ number)

theorem numbered_append (fields fields' : List Occurrence) (number : Nat) :
    numbered (fields ++ fields') number = numbered fields number ++ numbered fields' number :=
  List.filter_append ..

theorem numbered_cons_of_eq {f : Occurrence} {number : Nat} (h : f.key.number = number)
    (fields : List Occurrence) : numbered (f :: fields) number = f :: numbered fields number :=
  List.filter_cons_of_pos (decide_eq_true h)

theorem numbered_cons_of_ne {f : Occurrence} {number : Nat} (h : f.key.number ≠ number)
    (fields : List Occurrence) : numbered (f :: fields) number = numbered fields number :=
  List.filter_cons_of_neg (fun hnumber => h (of_decide_eq_true hnumber))

theorem numbered_others {number other : Nat} (h : number ≠ other) (fields : List Occurrence) :
    numbered (others fields other) number = numbered fields number := by
  rw [numbered, others, List.filter_filter]
  refine List.filter_congr fun f _ => ?_
  by_cases hf : f.key.number = number
  · simp [hf, h]
  · simp [hf]

theorem length_flatMap_bytes (fields : List Occurrence) (number : Nat) :
    (fields.flatMap bytes).length =
      ((numbered fields number).flatMap bytes).length +
        ((others fields number).flatMap bytes).length := by
  have hperm := List.filter_append_perm (fun f : Occurrence => f.key.number = number) fields
  have hbytes := (hperm.flatMap_right bytes).length_eq
  rw [List.flatMap_append, List.length_append] at hbytes
  simp only [numbered, others, ne_eq, decide_not]
  exact hbytes.symm

end Occurrence

namespace Slot

def key (s : Slot) : Key := ⟨s.number, s.type⟩

/-- The fields as a writer puts them. -/
def occurrences (s : Slot) : List Occurrence :=
  s.values.map fun v => ⟨s.key, s.key.encode, v.payload⟩

def encode (s : Slot) : List UInt8 := s.values.flatMap fun v => s.key.encode ++ v.payload

def levels (level : Nat) (s : Slot) : List Nat := s.values.flatMap (·.levels level)

/-- Fields that carry the values, one after the other. -/
def Carries (level : Nat) (s : Slot) (fields : List Occurrence) : Prop :=
  List.Forall₂ (fun v f => f.key = s.key ∧ v.Form level f.payload) s.values fields

end Slot

/-- The fields of a record at some level. The fields of each slot carry its values, and where a
field belongs to no slot, its level and the depth of its groups together stay below the budget. -/
structure Arranged (level : Nat) (slots : List Slot) (fields : List Occurrence) : Prop where
  keys : ∀ f ∈ fields, Key.Form f.key f.head
  known : ∀ s ∈ slots, s.Carries level (Occurrence.numbered fields s.number)
  unknown : ∀ f ∈ fields, (∀ s ∈ slots, s.number ≠ f.key.number) →
    ∃ depth, level + depth < recursionBudget ∧ PayloadForm depth f.key f.payload

namespace Content

def encode (c : Content) : List UInt8 := c.slots.flatMap Slot.encode

/-- The levels of the records in a record at some level. -/
def levels (level : Nat) (c : Content) : List Nat := c.slots.flatMap (Slot.levels level)

theorem encode_mk (slots : List Slot) (nodup : (slots.map (·.number)).Nodup) :
    (Content.mk slots nodup).encode = slots.flatMap Slot.encode := rfl

theorem levels_mk (level : Nat) (slots : List Slot) (nodup : (slots.map (·.number)).Nodup) :
    (Content.mk slots nodup).levels level = slots.flatMap (Slot.levels level) := rfl

/-- The bytes that serialize the content of a record at some level. -/
def Form (level : Nat) (c : Content) (bytes : List UInt8) : Prop :=
  ∃ fields, Arranged level c.slots fields ∧ bytes = fields.flatMap Occurrence.bytes

end Content

namespace Slot

theorem flatMap_bytes_occurrences (s : Slot) :
    s.occurrences.flatMap Occurrence.bytes = s.encode := by
  rw [occurrences, List.flatMap_map]
  rfl

theorem carries_occurrences (s : Slot) (level : Nat)
    (hsize : s.encode.length < 0x10000000000000000) : s.Carries level s.occurrences := by
  rw [Carries, occurrences, List.forall₂_map_right_iff, List.forall₂_same]
  intro v hv
  have hlength : (s.key.encode ++ v.payload).length ≤ s.encode.length :=
    List.Sublist.length_le (List.sublist_flatten_of_mem (List.mem_map_of_mem hv))
  rw [List.length_append] at hlength
  exact ⟨rfl, v.form_payload level (by omega)⟩

theorem numbered_occurrences_self (s : Slot) :
    Occurrence.numbered s.occurrences s.number = s.occurrences := by
  rw [Occurrence.numbered, List.filter_eq_self]
  intro f hf
  obtain ⟨v, -, rfl⟩ := List.mem_map.mp hf
  exact decide_eq_true rfl

theorem numbered_occurrences_of_ne {s : Slot} {number : Nat} (h : s.number ≠ number) :
    Occurrence.numbered s.occurrences number = [] := by
  rw [Occurrence.numbered, List.filter_eq_nil_iff]
  intro f hf
  obtain ⟨v, -, rfl⟩ := List.mem_map.mp hf
  exact fun hnumber => h (of_decide_eq_true hnumber)

theorem numbered_flatMap_occurrences_of_not_mem {slots : List Slot} {number : Nat}
    (h : number ∉ slots.map (·.number)) :
    Occurrence.numbered (slots.flatMap occurrences) number = [] := by
  rw [Occurrence.numbered, List.filter_flatMap, List.flatMap_eq_nil_iff]
  intro s hs
  exact numbered_occurrences_of_ne fun hnumber => h (hnumber ▸ List.mem_map_of_mem hs)

theorem numbered_flatMap_occurrences {slots : List Slot} (hnodup : (slots.map (·.number)).Nodup)
    {s : Slot} (hs : s ∈ slots) :
    Occurrence.numbered (slots.flatMap occurrences) s.number = s.occurrences := by
  induction slots with
  | nil => cases hs
  | cons t slots ih =>
    obtain ⟨ht, hslots⟩ := List.nodup_cons.mp hnodup
    rw [List.flatMap_cons, Occurrence.numbered_append]
    rcases List.mem_cons.mp hs with rfl | hs
    · rw [numbered_occurrences_self, numbered_flatMap_occurrences_of_not_mem ht, List.append_nil]
    · have hne : t.number ≠ s.number := fun hnumber =>
        ht (List.mem_map.mpr ⟨s, hs, hnumber.symm⟩)
      rw [numbered_occurrences_of_ne hne, ih hslots hs, List.nil_append]

end Slot

theorem Content.form_encode (c : Content) (level : Nat)
    (hsize : c.encode.length < 0x10000000000000000) : c.Form level c.encode := by
  refine ⟨c.slots.flatMap Slot.occurrences,
    ⟨fun f hf => ?_, fun s hs => ?_, fun f hf hne => ?_⟩, ?_⟩
  · obtain ⟨s, hs, hfs⟩ := List.mem_flatMap.mp hf
    obtain ⟨v, -, rfl⟩ := List.mem_map.mp hfs
    exact Key.form_encode s.number_pos s.number_lt
  · rw [Slot.numbered_flatMap_occurrences c.nodup hs]
    have hlength : s.encode.length ≤ c.encode.length :=
      List.Sublist.length_le (List.sublist_flatten_of_mem (List.mem_map_of_mem hs))
    exact s.carries_occurrences level (by omega)
  · obtain ⟨s, hs, hfs⟩ := List.mem_flatMap.mp hf
    obtain ⟨v, -, rfl⟩ := List.mem_map.mp hfs
    exact absurd rfl (hne s hs)
  · rw [List.flatMap_assoc]
    exact List.flatMap_congr fun s _ => s.flatMap_bytes_occurrences.symm

theorem Slot.Carries.length_encode_le {level : Nat} {s : Slot} {fields : List Occurrence}
    (h : s.Carries level fields) (hkeys : ∀ f ∈ fields, Key.Form f.key f.head) :
    s.encode.length ≤ (fields.flatMap Occurrence.bytes).length := by
  rw [Carries] at h
  rw [encode]
  generalize s.key = key at h ⊢
  generalize s.values = values at h ⊢
  induction h with
  | nil => exact Nat.le_refl _
  | @cons v f values fields hvf _ ih =>
    obtain ⟨rfl, hform⟩ := hvf
    have hhead := (hkeys f List.mem_cons_self).length_encode_le
    have hpayload := v.length_payload_le hform
    have hrest := ih fun f hf => hkeys f (List.mem_cons_of_mem _ hf)
    simp only [List.flatMap_cons, List.length_append, Occurrence.bytes]
    omega

theorem length_flatMap_encode_le {level : Nat} {slots : List Slot} {fields : List Occurrence}
    (hnodup : (slots.map (·.number)).Nodup) (hkeys : ∀ f ∈ fields, Key.Form f.key f.head)
    (hknown : ∀ s ∈ slots, s.Carries level (Occurrence.numbered fields s.number)) :
    (slots.flatMap Slot.encode).length ≤ (fields.flatMap Occurrence.bytes).length := by
  induction slots generalizing fields with
  | nil => exact Nat.zero_le _
  | cons t slots ih =>
    obtain ⟨ht, hslots⟩ := List.nodup_cons.mp hnodup
    have hown : t.encode.length ≤
        ((Occurrence.numbered fields t.number).flatMap Occurrence.bytes).length :=
      (hknown t List.mem_cons_self).length_encode_le fun f hf => hkeys f (List.mem_of_mem_filter hf)
    have hothers : (slots.flatMap Slot.encode).length ≤
        ((Occurrence.others fields t.number).flatMap Occurrence.bytes).length := by
      refine ih hslots (fun f hf => hkeys f (List.mem_of_mem_filter hf)) fun s hs => ?_
      have hne : s.number ≠ t.number := fun hnumber => ht (List.mem_map.mpr ⟨s, hs, hnumber⟩)
      rw [Occurrence.numbered_others hne]
      exact hknown s (List.mem_cons_of_mem _ hs)
    rw [List.flatMap_cons, List.length_append, Occurrence.length_flatMap_bytes fields t.number]
    exact Nat.add_le_add hown hothers

theorem Content.length_encode_le {level : Nat} {c : Content} {bytes : List UInt8}
    (h : c.Form level bytes) : c.encode.length ≤ bytes.length := by
  obtain ⟨fields, harranged, rfl⟩ := h
  exact length_flatMap_encode_le c.nodup harranged.keys harranged.known

namespace Delimited

theorem encode {content : List UInt8 → Prop} {bytes : List UInt8} (h : content bytes)
    (hlength : bytes.length < 0x10000000000000000) :
    Delimited content (Varint.encode bytes.length ++ bytes) :=
  ⟨_, bytes, Varint.form_encode hlength, h, rfl⟩

theorem length_le {content : List UInt8 → Prop} {canonical payload : List UInt8}
    (h : Delimited content payload)
    (hcontent : ∀ {bytes}, content bytes → canonical.length ≤ bytes.length) :
    (Varint.encode canonical.length ++ canonical).length ≤ payload.length := by
  obtain ⟨length, bytes, hlength, hbytes, rfl⟩ := h
  have hle := hcontent hbytes
  have hvarint := hlength.spells.length_encode_le hle
  simp only [List.length_append]
  omega

end Delimited

namespace Value

def text (t : String) : Value where
  payload := Varint.encode (bytesOfText t).length ++ bytesOfText t
  Form _ := Delimited (· = bytesOfText t)
  levels _ := []
  form_payload _ hsize := Delimited.encode rfl (by rw [List.length_append] at hsize; omega)
  length_payload_le h := h.length_le fun hbytes => Nat.le_of_eq (congrArg _ hbytes.symm)

/-- A whole number, as a varint of its 64 bits. -/
def number (value : Int32) : Value where
  payload := Varint.encode value.toInt64.toUInt64.toNat
  Form _ := Varint.Form value.toInt64.toUInt64.toNat
  levels _ := []
  form_payload _ _ := Varint.form_encode (UInt64.toNat_lt _)
  length_payload_le h := h.spells.length_encode_le (Nat.le_refl _)

/-- A number of 64 bits as a varint. -/
def word (value : UInt64) : Value where
  payload := Varint.encode value.toNat
  Form _ := Varint.Form value.toNat
  levels _ := []
  form_payload _ _ := Varint.form_encode (UInt64.toNat_lt _)
  length_payload_le h := h.spells.length_encode_le (Nat.le_refl _)

/-- A record, one level below the record around it. -/
def record (c : Content) : Value where
  payload := Varint.encode c.encode.length ++ c.encode
  Form level := Delimited (c.Form (level + 1))
  levels level := (level + 1) :: c.levels (level + 1)
  form_payload level hsize := by
    rw [List.length_append] at hsize
    exact Delimited.encode (c.form_encode (level + 1) (by omega)) (by omega)
  length_payload_le h := h.length_le c.length_encode_le

end Value

namespace Slot

def texts (number : Nat) (ts : List String) (hpos : 0 < number := by decide)
    (hlt : number < 0x20000000 := by decide) : Slot :=
  ⟨number, .lengthDelimited, ts.map Value.text, hpos, hlt⟩

def numbers (number : Nat) (values : List Int32) (hpos : 0 < number := by decide)
    (hlt : number < 0x20000000 := by decide) : Slot :=
  ⟨number, .varint, values.map Value.number, hpos, hlt⟩

def words (number : Nat) (values : List UInt64) (hpos : 0 < number := by decide)
    (hlt : number < 0x20000000 := by decide) : Slot :=
  ⟨number, .varint, values.map Value.word, hpos, hlt⟩

def records (number : Nat) (cs : List Content) (hpos : 0 < number := by decide)
    (hlt : number < 0x20000000 := by decide) : Slot :=
  ⟨number, .lengthDelimited, cs.map Value.record, hpos, hlt⟩

section

variable {number : Nat} (hpos : 0 < number) (hlt : number < 0x20000000)

@[simp] theorem number_texts (ts : List String) : (texts number ts hpos hlt).number = number := rfl

@[simp] theorem number_numbers (values : List Int32) :
    (numbers number values hpos hlt).number = number := rfl

@[simp] theorem number_words (values : List UInt64) :
    (words number values hpos hlt).number = number := rfl

@[simp] theorem number_records (cs : List Content) :
    (records number cs hpos hlt).number = number := rfl

@[simp] theorem key_texts (ts : List String) :
    (texts number ts hpos hlt).key = ⟨number, .lengthDelimited⟩ := rfl

@[simp] theorem key_numbers (values : List Int32) :
    (numbers number values hpos hlt).key = ⟨number, .varint⟩ := rfl

@[simp] theorem key_words (values : List UInt64) :
    (words number values hpos hlt).key = ⟨number, .varint⟩ := rfl

@[simp] theorem key_records (cs : List Content) :
    (records number cs hpos hlt).key = ⟨number, .lengthDelimited⟩ := rfl

@[simp] theorem length_values_texts (ts : List String) :
    (texts number ts hpos hlt).values.length = ts.length :=
  List.length_map _

@[simp] theorem length_values_numbers (values : List Int32) :
    (numbers number values hpos hlt).values.length = values.length :=
  List.length_map _

@[simp] theorem length_values_words (values : List UInt64) :
    (words number values hpos hlt).values.length = values.length :=
  List.length_map _

@[simp] theorem length_values_records (cs : List Content) :
    (records number cs hpos hlt).values.length = cs.length :=
  List.length_map _

theorem encode_texts (ts : List String) :
    (texts number ts hpos hlt).encode = (ts.map (encodeText number)).flatten := by
  rw [encode, texts, List.flatMap_map, ← List.flatMap_def]
  exact List.flatMap_congr fun t _ => (List.append_assoc ..).symm

theorem encode_numbers (values : List Int32) :
    (numbers number values hpos hlt).encode = (values.map (encodeInt32 number)).flatten := by
  rw [encode, numbers, List.flatMap_map, ← List.flatMap_def]
  rfl

theorem encode_words (values : List UInt64) :
    (words number values hpos hlt).encode = (values.map (encodeUInt64 number)).flatten := by
  rw [encode, words, List.flatMap_map, ← List.flatMap_def]
  rfl

theorem encode_records (cs : List Content) :
    (records number cs hpos hlt).encode =
      (cs.map fun c => encodeEmbedded number c.encode).flatten := by
  rw [encode, records, List.flatMap_map, ← List.flatMap_def]
  exact List.flatMap_congr fun c _ => (List.append_assoc ..).symm

theorem levels_texts (level : Nat) (ts : List String) :
    (texts number ts hpos hlt).levels level = [] := by
  simp [levels, texts, Value.text]

theorem levels_numbers (level : Nat) (values : List Int32) :
    (numbers number values hpos hlt).levels level = [] := by
  simp [levels, numbers, Value.number]

theorem levels_words (level : Nat) (values : List UInt64) :
    (words number values hpos hlt).levels level = [] := by
  simp [levels, words, Value.word]

theorem levels_records (level : Nat) (cs : List Content) :
    (records number cs hpos hlt).levels level =
      cs.flatMap fun c => (level + 1) :: c.levels (level + 1) := by
  rw [levels, records, List.flatMap_map]
  rfl

end

end Slot

end TopicPlugin.Wire
