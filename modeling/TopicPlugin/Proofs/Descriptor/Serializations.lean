import TopicPlugin.Proofs.Descriptor.RoundTrip

/-!
# Decoding any serialization

A request is decoded from any of its serializations: in every record the fields may come in any
order that keeps the order of fields with the same number, and fields of numbers that the record
does not know may stand anywhere between them.
-/

namespace TopicPlugin

open Wire

namespace Request

/-- All serializations of a request whose records lie no deeper than level 100 are decoded to the
same request, the one that its encoding is decoded to. -/
theorem decode_of_form {d : RequestDescriptor} {bytes : List UInt8}
    (hlevels : ∀ level ∈ d.levels, level ≤ 100) (hform : d.content.Form 0 bytes)
    (hsize : bytes.length < 0x8000000000000000) :
    decode bytes = .ok d.request ∧ decode bytes = decode d.encode := by
  have hany : ∀ {form}, d.content.Form 0 form → decode form = .ok d.request := fun hserial =>
    congrArg (Except.map RequestDescriptor.request) ((d.runs hserial).decodeRecord_eq_ok hlevels)
  have hshorter := Content.length_encode_le hform
  rw [RequestDescriptor.encode_content] at hshorter
  have hown : d.content.Form 0 d.encode := RequestDescriptor.form_encode (by omega)
  exact ⟨hany hform, (hany hform).trans (hany hown).symm⟩

/-- A request for two targets and one file without messages. -/
def mixed : RequestDescriptor := { targets := ["a", "b"], files := [{ name := some "f" }] }

/-- The name of the file after a varint under the number nine. -/
theorem form_mixed_file :
    (FileDescriptor.content { name := some "f" }).Form 1 [0x48, 0x05, 0x0a, 0x01, 0x66] := by
  refine ⟨[⟨⟨9, .varint⟩, [0x48], [0x05]⟩, ⟨⟨1, .lengthDelimited⟩, [0x0a], [0x01, 0x66]⟩], ?_, rfl⟩
  constructor
  case keys =>
    simp only [List.forall_mem_cons]
    exact ⟨Key.form_single (by decide) (by decide), Key.form_single (by decide) (by decide),
      List.forall_mem_nil _⟩
  case known =>
    simp only [FileDescriptor.content, List.forall_mem_cons, Slot.number_texts,
      Slot.number_records]
    refine ⟨.cons ⟨rfl, ?_⟩ .nil, .nil, .nil, List.forall_mem_nil _⟩
    exact ⟨_, [0x66], Varint.form_single (by decide), by decide +kernel, rfl⟩
  case unknown =>
    simp only [List.forall_mem_cons]
    exact ⟨fun _ => ⟨0, by decide, 5, Varint.form_single (by decide)⟩,
      fun hne => absurd rfl (hne (.texts 1 ["f"]) List.mem_cons_self), List.forall_mem_nil _⟩

/-- The first target, the file, a group with a varint in it under the number three, and the second
target. -/
def mixedBytes : List UInt8 :=
  [0x0a, 0x01, 0x61, 0x7a, 0x05, 0x48, 0x05, 0x0a, 0x01, 0x66, 0x1b, 0x08, 0x07, 0x1c,
    0x0a, 0x01, 0x62]

theorem form_mixed : mixed.content.Form 0 mixedBytes := by
  refine ⟨[⟨⟨1, .lengthDelimited⟩, [0x0a], [0x01, 0x61]⟩,
    ⟨⟨15, .lengthDelimited⟩, [0x7a], [0x05, 0x48, 0x05, 0x0a, 0x01, 0x66]⟩,
    ⟨⟨3, .startGroup⟩, [0x1b], [0x08, 0x07, 0x1c]⟩,
    ⟨⟨1, .lengthDelimited⟩, [0x0a], [0x01, 0x62]⟩], ?_, rfl⟩
  constructor
  case keys =>
    simp only [List.forall_mem_cons]
    exact ⟨Key.form_single (by decide) (by decide), Key.form_single (by decide) (by decide),
      Key.form_single (by decide) (by decide), Key.form_single (by decide) (by decide),
      List.forall_mem_nil _⟩
  case known =>
    simp only [mixed, RequestDescriptor.content, List.forall_mem_cons, Slot.number_texts,
      Slot.number_records]
    refine ⟨.cons ⟨rfl, ?first⟩ (.cons ⟨rfl, ?second⟩ .nil), .nil, .cons ⟨rfl, ?file⟩ .nil,
      List.forall_mem_nil _⟩
    case first => exact ⟨_, [0x61], Varint.form_single (by decide), by decide +kernel, rfl⟩
    case second => exact ⟨_, [0x62], Varint.form_single (by decide), by decide +kernel, rfl⟩
    case file => exact ⟨_, _, Varint.form_single (by decide), form_mixed_file, rfl⟩
  case unknown =>
    have hkey : Key.Form ⟨1, .varint⟩ [0x08] := Key.form_single (by decide) (by decide)
    have hgroup : GroupForm (PayloadForm 0) 3 ([0x08] ++ ([0x07] ++ [0x1c])) :=
      .cons hkey ⟨7, Varint.form_single (by decide)⟩
        (.close (Key.form_single (by decide) (by decide)))
    have htargets : Slot.texts 1 ["a", "b"] ∈ mixed.content.slots := List.mem_cons_self
    have hfiles : Slot.records 15 [FileDescriptor.content { name := some "f" }] ∈
        mixed.content.slots := List.mem_of_mem_getLast? rfl
    simp only [List.forall_mem_cons]
    exact ⟨fun hne => absurd rfl (hne _ htargets), fun hne => absurd rfl (hne _ hfiles),
      fun _ => ⟨1, by decide, hgroup⟩, fun hne => absurd rfl (hne _ htargets),
      List.forall_mem_nil _⟩

theorem decode_of_form_mixed :
    (∀ level ∈ mixed.levels, level ≤ 100) ∧ mixed.content.Form 0 mixedBytes ∧
      mixedBytes.length < 0x8000000000000000 ∧
      decode mixedBytes = .ok mixed.request ∧ decode mixedBytes = decode mixed.encode := by
  have hlevels : ∀ level ∈ mixed.levels, level ≤ 100 := by decide
  exact ⟨hlevels, form_mixed, by decide, decode_of_form hlevels form_mixed (by decide)⟩

end Request

end TopicPlugin
