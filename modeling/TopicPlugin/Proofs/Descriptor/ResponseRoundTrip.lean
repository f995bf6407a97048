import TopicPlugin.Proofs.Descriptor.RoundTrip
import TopicPlugin.Proofs.Wire.Accepted

/-!
# Decoding an encoded response

A response on the wire is a record whose files are records of two texts each, so none of its records
lies deeper than the first level and the limit on the levels never comes up. What is read back is
all that the response says, and therefore no two responses are written alike.
-/

namespace TopicPlugin

open Wire Wire.Reader

namespace FileRecord

def upTo (f : FileRecord) (count : Nat → Nat) : FileRecord :=
  ⟨seen f.name (count 1), seen f.content (count 15)⟩

theorem assembles (f : FileRecord) {level budget : Nat}
    (hbudget : level + budget = recursionBudget) :
    Assembles (step budget) level f.toContent {} f f.upTo where
  start := rfl
  result count hcount := by
    simp only [toContent, List.forall_mem_cons, Slot.length_values_texts,
      Slot.number_texts] at hcount
    obtain ⟨hname, hcontent, -⟩ := hcount
    rw [upTo, seen_of_length_le hname, seen_of_length_le hcontent]
  known := by
    simp only [toContent, List.forall_mem_cons, Slot.number_texts, Slot.key_texts]
    refine ⟨?_, ?_, List.forall_mem_nil _⟩
    · intro count v payload hv hform
      obtain ⟨name, rfl, hname, -⟩ := exists_single hv
      exact (takes_readText hform).store _ (by simp [upTo, hname])
    · intro count v payload hv hform
      obtain ⟨content, rfl, hcontent, -⟩ := exists_single hv
      exact (takes_readText hform).store _ (by simp [upTo, hcontent])
  unknown record key payload hne hpayload := by
    simp only [toContent, List.forall_mem_cons, Slot.number_texts] at hne
    obtain ⟨hname, hcontent, -⟩ := hne
    simp only [step]
    split
    · exact absurd (Eq.symm ‹_›) hname
    · exact absurd (Eq.symm ‹_›) hcontent
    · exact reads_skip_pure hbudget hpayload

end FileRecord

namespace ResponseRecord

def upTo (r : ResponseRecord) (count : Nat → Nat) : ResponseRecord :=
  ⟨seen r.failure (count 1), seen r.features (count 2), r.files.take (count 15)⟩

theorem assembles (r : ResponseRecord) {level budget : Nat}
    (hbudget : level + budget = recursionBudget) :
    Assembles (step budget) level r.toContent {} r r.upTo where
  start := rfl
  result count hcount := by
    simp only [toContent, List.forall_mem_cons, Slot.length_values_texts, Slot.number_texts,
      Slot.length_values_words, Slot.number_words, Slot.length_values_records, Slot.number_records,
      List.length_map] at hcount
    obtain ⟨hfailure, hfeatures, hfiles, -⟩ := hcount
    rw [upTo, seen_of_length_le hfailure, seen_of_length_le hfeatures,
      List.take_of_length_le hfiles]
  known := by
    simp only [toContent, List.forall_mem_cons, Slot.number_texts, Slot.key_texts,
      Slot.number_words, Slot.key_words, Slot.number_records, Slot.key_records]
    refine ⟨?_, ?_, ?_, List.forall_mem_nil _⟩
    · intro count v payload hv hform
      obtain ⟨failure, rfl, hfailure, -⟩ := exists_single hv
      exact (takes_readText hform).store _ (by simp [upTo, hfailure])
    · intro count v payload hv hform
      obtain ⟨features, rfl, hfeatures, -⟩ := exists_single hv
      exact (takes_readUInt64 hform).store _ (by simp [upTo, hfeatures])
    · intro count v payload hv hform
      obtain ⟨file, rfl, hfile⟩ := exists_repeated_record hv
      have hread := takes_readEmbedded 15 hbudget
        (fun hinner hbytes => (file.assembles hinner).runs hbytes) hform
      exact hread.store _ (by simp [upTo, hfile])
  unknown record key payload hne hpayload := by
    simp only [toContent, List.forall_mem_cons, Slot.number_texts, Slot.number_words,
      Slot.number_records] at hne
    obtain ⟨hfailure, hfeatures, hfiles, -⟩ := hne
    simp only [step]
    split
    · exact absurd (Eq.symm ‹_›) hfailure
    · exact absurd (Eq.symm ‹_›) hfeatures
    · exact absurd (Eq.symm ‹_›) hfiles
    · exact reads_skip_pure hbudget hpayload

/-- What is encoded is given back, unless it is so long that a length cannot say so. -/
theorem decode_of_encode {r : ResponseRecord} (hsize : r.encode.length < 0x10000000000000000) :
    decode r.encode = .ok r := by
  have hform : r.toContent.Form 0 r.toContent.encode :=
    r.toContent.form_encode 0 (by rwa [encode_toContent])
  rw [encode_toContent] at hform
  refine ((r.assembles (Nat.zero_add _)).runs hform).decodeRecord_eq_ok fun l hl => ?_
  rw [eq_of_mem_levels hl]
  decide

end ResponseRecord

/-- Whatever the fields of a file are, they are taken from the front. -/
theorem FileRecord.keeps (budget : Nat) : Keeps (step budget) fun _ _ => True := by
  rintro f before ⟨number, type⟩ head - -
  rw [step]
  split
  next => exact (takesOnly_readText _).store _ fun _ _ _ => trivial
  next => exact (takesOnly_readText _).store _ fun _ _ _ => trivial
  next => exact takesOnly_skip_pure _ _ fun _ => trivial

namespace ResponseRecord

/-- A failure has been read, whatever the bytes were. -/
def Reports (r : ResponseRecord) (_ : List UInt8) : Prop := r.failure.isSome = true

/-- A failure may be replaced by another one, but not removed. -/
theorem keeps_reports (budget : Nat) : Keeps (step budget) Reports := by
  rintro r before ⟨number, type⟩ head hr -
  rw [step]
  split
  next => exact (takesOnly_readText _).store _ fun _ _ _ => rfl
  next => exact (takesOnly_readUInt64 _).store _ fun _ _ _ => hr
  next =>
    have hread : TakesOnly (readEmbedded (deeper FileRecord.step budget) {} ⟨number, type⟩) _ :=
      takesOnly_readEmbedded _ fun inner _ => ⟨FileRecord.keeps inner, trivial⟩
    exact hread.store _ fun _ _ _ => hr
  next => exact takesOnly_skip_pure _ _ fun _ => hr

/-- The failure is written first, so a record that can be read at all has one. -/
theorem isSome_failure_of_decode {r record : ResponseRecord} (hr : r.failure.isSome = true)
    (h : decode r.encode = .ok record) : record.failure.isSome = true := by
  obtain ⟨text, htext⟩ := Option.isSome_iff_exists.mp hr
  have hencode : ∃ rest, r.encode = Key.encode ⟨1, .lengthDelimited⟩ ++ rest := by
    simp only [encode, htext, encodeOption_some, encodeText, List.append_assoc]
    exact ⟨_, rfl⟩
  obtain ⟨rest, hrest⟩ := hencode
  rw [decode, hrest] at h
  obtain ⟨first, m, last, hfirst, hrun⟩ :=
    exists_first_of_decodeRecord (Key.form_encode (by decide) (by decide)) h
  have hread : TakesOnly (step recursionBudget {} ⟨1, .lengthDelimited⟩) Reports :=
    (takesOnly_readText _).store _ fun _ _ _ => rfl
  obtain ⟨taken, -, hreports⟩ := hread _ _ _ hfirst
  obtain ⟨_, _, _, hrecord⟩ := (keeps_reports recursionBudget).runFields hreports hrun
  exact hrecord

end ResponseRecord

theorem FileRecord.ofArtifact_injective : Function.Injective ofArtifact := by
  rintro ⟨name, content⟩ ⟨name', content'⟩ h
  simpa [ofArtifact] using h

theorem ResponseRecord.ofResponse_injective : Function.Injective ofResponse := by
  rintro ⟨artifacts, failure⟩ ⟨artifacts', failure'⟩ h
  obtain ⟨hfailure, -, hfiles⟩ := ResponseRecord.mk.inj h
  have hartifacts : artifacts = artifacts' :=
    List.map_injective_iff.mpr FileRecord.ofArtifact_injective hfiles
  rw [Response.mk.injEq]
  exact ⟨hartifacts, hfailure⟩

namespace Response

/-- A response reads back with its own failure, one that is absent told from an empty one, with the
one supported feature, and with its artifacts in order; so another response is written otherwise. -/
theorem encode_faithful {r : Response} (hsize : r.encode.length < 0x8000000000000000) :
    (∃ record, ResponseRecord.decode r.encode = .ok record ∧ record.failure = r.failure ∧
      record.features = some 1 ∧
      record.files.map (fun f => (f.name, f.content)) =
        r.artifacts.map fun a => (some a.name, some a.content)) ∧
    ∀ other : Response, other ≠ r → other.encode ≠ r.encode := by
  have hfits : r.encode.length < 0x10000000000000000 := by omega
  have hdecode : ResponseRecord.decode r.encode = .ok (.ofResponse r) :=
    ResponseRecord.decode_of_encode hfits
  refine ⟨⟨.ofResponse r, hdecode, rfl, rfl, ?_⟩, fun other hne hencode => hne ?_⟩
  · rw [ResponseRecord.ofResponse, List.map_map]
    rfl
  · rw [← hencode] at hfits
    have hother : ResponseRecord.decode other.encode = .ok (.ofResponse other) :=
      ResponseRecord.decode_of_encode hfits
    rw [hencode, hdecode] at hother
    exact (ResponseRecord.ofResponse_injective (Except.ok.inj hother)).symm

/-- An empty failure, and artifacts of which one has neither a name nor a content. -/
def empties : Response :=
  { artifacts := [⟨"", ""⟩, ⟨"τ.mps", "{}"⟩, ⟨"", ""⟩], failure := some "" }

theorem encode_faithful_empties :
    empties.encode.length < 0x8000000000000000 ∧
      (∃ record, ResponseRecord.decode empties.encode = .ok record ∧ record.failure = some "" ∧
        record.features = some 1 ∧ record.files.map (fun f => (f.name, f.content)) =
          [(some "", some ""), (some "τ.mps", some "{}"), (some "", some "")]) ∧
      { empties with failure := none }.encode ≠ empties.encode := by
  have hsize : empties.encode.length < 0x8000000000000000 := by decide +kernel
  have hfaithful := encode_faithful hsize
  exact ⟨hsize, hfaithful.1, hfaithful.2 _ (by decide)⟩

end Response

end TopicPlugin
