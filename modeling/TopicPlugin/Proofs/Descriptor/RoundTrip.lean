import TopicPlugin.Descriptor.Decode
import TopicPlugin.Proofs.Descriptor.Contents
import TopicPlugin.Proofs.Wire.Assembly

/-!
# Decoding what was encoded

Each step of the decoder assembles its kind of descriptor from the content of one: a single value is
there once it has been taken, and repeated values are taken from the front. A request is therefore
what its encoding is decoded to (`decode_encode`), up to the limit on the levels of its records.
-/

namespace TopicPlugin

open Wire

/-- A single value once it has been taken. -/
def seen {α : Type} (value : Option α) (count : Nat) : Option α := if count = 0 then none else value

theorem seen_of_length_le {α : Type} {value : Option α} {count : Nat}
    (h : value.toList.length ≤ count) : seen value count = value := by
  cases value with
  | none => exact ite_self none
  | some a => exact if_neg (Nat.ne_of_gt h)

theorem seen_zero {α : Type} (value : Option α) : seen value 0 = none := if_pos rfl

@[simp] theorem seen_succ {α : Type} (value : Option α) (count : Nat) :
    seen value (count + 1) = value :=
  if_neg (Nat.succ_ne_zero count)

theorem exists_single {α : Type} {f : α → Value} {value : Option α} {count : Nat} {v : Value}
    (h : (value.toList.map f)[count]? = some v) :
    ∃ a, v = f a ∧ value = some a ∧ count = 0 := by
  cases value with
  | none => cases h
  | some a =>
    cases count with
    | zero => exact ⟨a, (Option.some.inj h).symm, rfl, rfl⟩
    | succ count => cases h

theorem exists_repeated {α : Type} {f : α → Value} {values : List α} {count : Nat} {v : Value}
    (h : (values.map f)[count]? = some v) :
    ∃ a, v = f a ∧ values.take (count + 1) = values.take count ++ [a] := by
  rw [List.getElem?_map, Option.map_eq_some_iff] at h
  obtain ⟨a, ha, rfl⟩ := h
  exact ⟨a, rfl, by rw [List.take_add_one, ha, Option.toList_some]⟩

section

variable {α : Type} {content : α → Content} {number count : Nat} {v : Value} {hpos : 0 < number}
  {hlt : number < 0x20000000}

theorem exists_single_record {value : Option α}
    (h : (Slot.records number (value.toList.map content) hpos hlt).values[count]? = some v) :
    ∃ a, v = Value.record (content a) ∧ value = some a ∧ count = 0 := by
  simp only [Slot.records, List.map_map] at h
  exact exists_single h

theorem exists_repeated_record {values : List α}
    (h : (Slot.records number (values.map content) hpos hlt).values[count]? = some v) :
    ∃ a, v = Value.record (content a) ∧ values.take (count + 1) = values.take count ++ [a] := by
  simp only [Slot.records, List.map_map] at h
  exact exists_repeated h

end

namespace Pipe

def upTo (p : Pipe) (count : Nat → Nat) : Pipe := ⟨seen p.topic (count 1)⟩

theorem assembles (p : Pipe) {level budget : Nat} (hbudget : level + budget = recursionBudget) :
    Assembles (step budget) level p.content {} p p.upTo where
  start := rfl
  result count hcount := by
    simp only [content, List.forall_mem_cons, Slot.length_values_texts, Slot.number_texts] at hcount
    rw [upTo, seen_of_length_le hcount.1]
  known := by
    simp only [content, List.forall_mem_singleton, Slot.number_texts, Slot.key_texts]
    intro count v payload hv hform
    obtain ⟨topic, rfl, htopic, -⟩ := exists_single hv
    exact (takes_readText hform).store _ (by simp [upTo, htopic])
  unknown record key payload hne hpayload := by
    simp only [content, List.forall_mem_singleton, Slot.number_texts] at hne
    simp only [step]
    split
    · exact absurd (Eq.symm ‹_›) hne
    · exact reads_skip_pure hbudget hpayload

end Pipe

namespace Options

def upTo (o : Options) (count : Nat → Nat) : Options := ⟨seen o.pipe (count pipeNumber)⟩

theorem assembles (o : Options) {level budget : Nat} (hbudget : level + budget = recursionBudget) :
    Assembles (step budget) level o.content {} o o.upTo where
  start := rfl
  result count hcount := by
    simp only [content, List.forall_mem_cons, Slot.length_values_records, Slot.number_records,
      List.length_map] at hcount
    rw [upTo, seen_of_length_le hcount.1]
  known := by
    simp only [content, List.forall_mem_singleton, Slot.number_records, Slot.key_records]
    intro count v payload hv hform
    obtain ⟨pipe, rfl, hpipe, hzero⟩ := exists_single_record hv
    -- The pipe occurs once, so nothing of it has been read before.
    have hstart : (o.upTo count).pipe.getD {} = {} := by
      rw [upTo, hzero, seen_zero, Option.getD_none]
    have hread := takes_readEmbedded pipeNumber hbudget
      (fun hinner hbytes => (pipe.assembles hinner).runs hbytes) hform
    rw [← hstart] at hread
    rw [step, if_pos rfl]
    exact hread.store _ (by simp [upTo, hpipe])
  unknown record key payload hne hpayload := by
    simp only [content, List.forall_mem_singleton, Slot.number_records] at hne
    rw [step, if_neg hne.symm]
    exact reads_skip_pure hbudget hpayload

end Options

namespace FieldDescriptor

def upTo (d : FieldDescriptor) (count : Nat → Nat) : FieldDescriptor :=
  ⟨seen d.name (count 1), seen d.number (count 3), seen d.label (count 4), seen d.type (count 5),
    seen d.typeName (count 6)⟩

theorem assembles (d : FieldDescriptor) {level budget : Nat}
    (hbudget : level + budget = recursionBudget) :
    Assembles (step budget) level d.content {} d d.upTo where
  start := rfl
  result count hcount := by
    simp only [content, List.forall_mem_cons, Slot.length_values_texts, Slot.number_texts,
      Slot.length_values_numbers, Slot.number_numbers] at hcount
    obtain ⟨hname, hnumber, hlabel, htype, htypeName, -⟩ := hcount
    rw [upTo, seen_of_length_le hname, seen_of_length_le hnumber, seen_of_length_le hlabel,
      seen_of_length_le htype, seen_of_length_le htypeName]
  known := by
    simp only [content, List.forall_mem_cons, Slot.number_texts, Slot.key_texts,
      Slot.number_numbers, Slot.key_numbers]
    refine ⟨?_, ?_, ?_, ?_, ?_, List.forall_mem_nil _⟩
    · intro count v payload hv hform
      obtain ⟨name, rfl, hname, -⟩ := exists_single hv
      exact (takes_readText hform).store _ (by simp [upTo, hname])
    · intro count v payload hv hform
      obtain ⟨number, rfl, hnumber, -⟩ := exists_single hv
      exact (takes_readInt32 hform).store _ (by simp [upTo, hnumber])
    · intro count v payload hv hform
      obtain ⟨label, rfl, hlabel, -⟩ := exists_single hv
      exact (takes_readInt32 hform).store _ (by simp [upTo, hlabel])
    · intro count v payload hv hform
      obtain ⟨type, rfl, htype, -⟩ := exists_single hv
      exact (takes_readInt32 hform).store _ (by simp [upTo, htype])
    · intro count v payload hv hform
      obtain ⟨typeName, rfl, htypeName, -⟩ := exists_single hv
      exact (takes_readText hform).store _ (by simp [upTo, htypeName])
  unknown record key payload hne hpayload := by
    simp only [content, List.forall_mem_cons, Slot.number_texts, Slot.number_numbers] at hne
    obtain ⟨hname, hnumber, hlabel, htype, htypeName, -⟩ := hne
    simp only [step]
    split
    · exact absurd (Eq.symm ‹_›) hname
    · exact absurd (Eq.symm ‹_›) hnumber
    · exact absurd (Eq.symm ‹_›) hlabel
    · exact absurd (Eq.symm ‹_›) htype
    · exact absurd (Eq.symm ‹_›) htypeName
    · exact reads_skip_pure hbudget hpayload

end FieldDescriptor

namespace MessageDescriptor

def upTo (d : MessageDescriptor) (count : Nat → Nat) : MessageDescriptor :=
  ⟨seen d.name (count 1), d.fields.take (count 2), d.nested.take (count 3),
    seen d.options (count 7)⟩

/-- The step for nested messages is the step itself with a smaller budget. -/
theorem deeper_step (budget : Nat) :
    deeper step budget = match budget with
      | 0 => none
      | budget + 1 => some (step budget) := by
  cases budget <;> rfl

theorem assembles (d : MessageDescriptor) {level budget : Nat}
    (hbudget : level + budget = recursionBudget) :
    Assembles (step budget) level d.content {} d d.upTo := by
  obtain ⟨name, fields, nested, options⟩ := d
  constructor
  case start => rfl
  case result =>
    intro count hcount
    simp only [content, contentOf, List.forall_mem_cons, Slot.length_values_texts,
      Slot.number_texts, Slot.length_values_records, Slot.number_records, List.length_map] at hcount
    obtain ⟨hname, hfields, hnested, hoptions, -⟩ := hcount
    rw [upTo, seen_of_length_le hname, List.take_of_length_le hfields,
      List.take_of_length_le hnested, seen_of_length_le hoptions]
  case known =>
    simp only [content, contentOf, List.forall_mem_cons, Slot.number_texts, Slot.key_texts,
      Slot.number_records, Slot.key_records]
    refine ⟨?_, ?_, ?_, ?_, List.forall_mem_nil _⟩
    · intro count v payload hv hform
      obtain ⟨name, rfl, rfl, -⟩ := exists_single hv
      rw [step.eq_def]
      exact (takes_readText hform).store _ (by simp [upTo])
    · intro count v payload hv hform
      obtain ⟨field, rfl, hfield⟩ := exists_repeated_record hv
      have hread := takes_readEmbedded 2 hbudget
        (fun hinner hbytes => (field.assembles hinner).runs hbytes) hform
      rw [step.eq_def]
      exact hread.store _ (by simp [upTo, hfield])
    -- A nested message is read with a smaller budget, and the recursion is on the budget.
    · intro count v payload hv hform
      obtain ⟨inner, rfl, hinner⟩ := exists_repeated_record hv
      have hread := takes_readEmbedded 3 hbudget
        (fun hlevel hbytes => (inner.assembles hlevel).runs hbytes) hform
      rw [deeper_step] at hread
      rw [step.eq_def]
      exact hread.store _ (by simp [upTo, hinner])
    · intro count v payload hv hform
      obtain ⟨options, rfl, rfl, hzero⟩ := exists_single_record hv
      have hread := takes_readEmbedded 7 hbudget
        (fun hinner hbytes => (options.assembles hinner).runs hbytes) hform
      have hstart : (upTo ⟨name, fields, nested, some options⟩ count).options.getD {} = {} := by
        rw [upTo, hzero, seen_zero, Option.getD_none]
      rw [← hstart] at hread
      rw [step.eq_def]
      exact hread.store _ (by simp [upTo])
  case unknown =>
    intro record key payload hne hpayload
    simp only [content, contentOf, List.forall_mem_cons, Slot.number_texts,
      Slot.number_records] at hne
    obtain ⟨hname, hfields, hnested, hoptions, -⟩ := hne
    rw [step.eq_def]
    split
    · exact absurd (Eq.symm ‹_›) hname
    · exact absurd (Eq.symm ‹_›) hfields
    · exact absurd (Eq.symm ‹_›) hnested
    · exact absurd (Eq.symm ‹_›) hoptions
    · exact reads_skip_pure hbudget hpayload
termination_by budget

end MessageDescriptor

namespace FileDescriptor

def upTo (d : FileDescriptor) (count : Nat → Nat) : FileDescriptor :=
  ⟨seen d.name (count 1), seen d.package (count 2), d.messages.take (count 4)⟩

theorem assembles (d : FileDescriptor) {level budget : Nat}
    (hbudget : level + budget = recursionBudget) :
    Assembles (step budget) level d.content {} d d.upTo where
  start := rfl
  result count hcount := by
    simp only [content, List.forall_mem_cons, Slot.length_values_texts, Slot.number_texts,
      Slot.length_values_records, Slot.number_records, List.length_map] at hcount
    obtain ⟨hname, hpackage, hmessages, -⟩ := hcount
    rw [upTo, seen_of_length_le hname, seen_of_length_le hpackage,
      List.take_of_length_le hmessages]
  known := by
    simp only [content, List.forall_mem_cons, Slot.number_texts, Slot.key_texts,
      Slot.number_records, Slot.key_records]
    refine ⟨?_, ?_, ?_, List.forall_mem_nil _⟩
    · intro count v payload hv hform
      obtain ⟨name, rfl, hname, -⟩ := exists_single hv
      exact (takes_readText hform).store _ (by simp [upTo, hname])
    · intro count v payload hv hform
      obtain ⟨package, rfl, hpackage, -⟩ := exists_single hv
      exact (takes_readText hform).store _ (by simp [upTo, hpackage])
    · intro count v payload hv hform
      obtain ⟨message, rfl, hmessage⟩ := exists_repeated_record hv
      have hread := takes_readEmbedded 4 hbudget
        (fun hinner hbytes => (message.assembles hinner).runs hbytes) hform
      exact hread.store _ (by simp [upTo, hmessage])
  unknown record key payload hne hpayload := by
    simp only [content, List.forall_mem_cons, Slot.number_texts, Slot.number_records] at hne
    obtain ⟨hname, hpackage, hmessages, -⟩ := hne
    simp only [step]
    split
    · exact absurd (Eq.symm ‹_›) hname
    · exact absurd (Eq.symm ‹_›) hpackage
    · exact absurd (Eq.symm ‹_›) hmessages
    · exact reads_skip_pure hbudget hpayload

end FileDescriptor

namespace RequestDescriptor

def upTo (d : RequestDescriptor) (count : Nat → Nat) : RequestDescriptor :=
  ⟨d.targets.take (count 1), seen d.parameter (count 2), d.files.take (count 15)⟩

theorem assembles (d : RequestDescriptor) {level budget : Nat}
    (hbudget : level + budget = recursionBudget) :
    Assembles (step budget) level d.content {} d d.upTo where
  start := rfl
  result count hcount := by
    simp only [content, List.forall_mem_cons, Slot.length_values_texts, Slot.number_texts,
      Slot.length_values_records, Slot.number_records, List.length_map] at hcount
    obtain ⟨htargets, hparameter, hfiles, -⟩ := hcount
    rw [upTo, List.take_of_length_le htargets, seen_of_length_le hparameter,
      List.take_of_length_le hfiles]
  known := by
    simp only [content, List.forall_mem_cons, Slot.number_texts, Slot.key_texts,
      Slot.number_records, Slot.key_records]
    refine ⟨?_, ?_, ?_, List.forall_mem_nil _⟩
    · intro count v payload hv hform
      obtain ⟨target, rfl, htarget⟩ := exists_repeated hv
      exact (takes_readText hform).store _ (by simp [upTo, htarget])
    · intro count v payload hv hform
      obtain ⟨parameter, rfl, hparameter, -⟩ := exists_single hv
      exact (takes_readText hform).store _ (by simp [upTo, hparameter])
    · intro count v payload hv hform
      obtain ⟨file, rfl, hfile⟩ := exists_repeated_record hv
      have hread := takes_readEmbedded 15 hbudget
        (fun hinner hbytes => (file.assembles hinner).runs hbytes) hform
      exact hread.store _ (by simp [upTo, hfile])
  unknown record key payload hne hpayload := by
    simp only [content, List.forall_mem_cons, Slot.number_texts, Slot.number_records] at hne
    obtain ⟨htargets, hparameter, hfiles, -⟩ := hne
    simp only [step]
    split
    · exact absurd (Eq.symm ‹_›) htargets
    · exact absurd (Eq.symm ‹_›) hparameter
    · exact absurd (Eq.symm ‹_›) hfiles
    · exact reads_skip_pure hbudget hpayload

/-- Every serialization of a request is decoded to the request if its records fit. -/
theorem runs (d : RequestDescriptor) {bytes : List UInt8} (hform : d.content.Form 0 bytes) :
    Runs (∀ level ∈ d.levels, level ≤ recursionBudget) (step recursionBudget) {} d bytes := by
  have hruns := (d.assembles (Nat.zero_add _)).runs hform
  rwa [Content.Fits, levels_content] at hruns

theorem form_encode {d : RequestDescriptor} (hsize : d.encode.length < 0x10000000000000000) :
    d.content.Form 0 d.encode := by
  rw [← encode_content] at hsize ⊢
  exact d.content.form_encode 0 hsize

/-- A request is what its encoding is decoded to, as long as no record lies below the hundredth
level; if one does, the limit is reported. -/
theorem decode_encode {d : RequestDescriptor} (hsize : d.encode.length < 0x8000000000000000) :
    ((∀ level ∈ d.levels, level ≤ 100) → decode d.encode = .ok d) ∧
      ((∃ level ∈ d.levels, 100 < level) → ∃ e, decode d.encode = .error e ∧
        e.cause = .recursionLimit ∧ e.cause.message = "recursion limit reached") := by
  have hform : d.content.Form 0 d.encode := form_encode (by omega)
  refine ⟨fun hfits => (d.runs hform).decodeRecord_eq_ok hfits, fun hdeep => ?_⟩
  obtain ⟨level, hlevel, hlt⟩ := hdeep
  have hnot : ¬∀ level ∈ d.levels, level ≤ recursionBudget := fun hfits =>
    Nat.not_lt.mpr (hfits level hlevel) hlt
  obtain ⟨places, hplaces⟩ := (d.runs hform).decodeRecord_eq_error hnot
  exact ⟨_, hplaces, rfl, rfl⟩

/-- A request for one file with messages nested one inside the other. The innermost one has a field
with a negative number and, two levels further down, a pipe. -/
def nesting (depth : Nat) : RequestDescriptor :=
  { files := [{ messages := [Nat.repeat (fun inner => { nested := [inner] }) depth
      { fields := [{ number := some (-1) }], options := some { pipe := some {} } }] }] }

section

set_option maxRecDepth 4000

/-- The pipe is at level 100 in one request and at level 101 in the other. -/
theorem decode_encode_nesting :
    (nesting 96).encode.length < 0x8000000000000000 ∧
      decode (nesting 96).encode = .ok (nesting 96) ∧
      (nesting 97).encode.length < 0x8000000000000000 ∧
      ∃ e, decode (nesting 97).encode = .error e ∧ e.cause = .recursionLimit ∧
        e.cause.message = "recursion limit reached" := by
  have hsize : (nesting 96).encode.length < 0x8000000000000000 := by cbv
  have hfits : (nesting 96).levels.all (· ≤ 100) = true := by cbv
  have hsize' : (nesting 97).encode.length < 0x8000000000000000 := by cbv
  have hdeep : (nesting 97).levels.contains 101 = true := by cbv
  exact ⟨hsize, (decode_encode hsize).1 (by simpa using hfits), hsize',
    (decode_encode hsize').2 ⟨101, List.contains_iff_mem.mp hdeep, by decide⟩⟩

end

end RequestDescriptor

end TopicPlugin
