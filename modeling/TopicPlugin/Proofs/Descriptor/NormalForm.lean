import TopicPlugin.Proofs.Descriptor.RoundTrip
import TopicPlugin.Proofs.Wire.Accepted

/-!
# The normal form of a request

Whatever bytes a request was decoded from, its own encoding is decoded to it again. Decoding does
not give the bytes back, since it drops unknown fields, merges what came in pieces and cuts numbers
down to 32 bits. What it does give lies within the levels that the budget allows, and its encoding
is at most twice as long as the bytes, so that every length in it can be written (`Bounded`). The
factor is needed: a negative number may have been read from five bytes and takes ten.
-/

namespace TopicPlugin

open Wire Reader

namespace Wire

theorem length_flatten_concat {α : Type} (encode : α → List UInt8) (as : List α) (a : α) :
    ((as ++ [a]).map encode).flatten.length = (as.map encode).flatten.length + (encode a).length := by
  rw [List.map_append, List.map_singleton, List.flatten_append, List.flatten_singleton,
    List.length_append]

section

variable {number : Nat} {type : WireType} {head payload : List UInt8}

theorem length_encodeText_le {t : String} (hkey : Key.Form ⟨number, type⟩ head)
    (h : type = .lengthDelimited ∧ Delimited (· = bytesOfText t) payload) :
    (encodeText number t).length ≤ (head ++ payload).length := by
  obtain ⟨rfl, htext⟩ := h
  have hhead := hkey.length_encode_le
  have hpayload := htext.length_le fun hbytes => Nat.le_of_eq (congrArg List.length hbytes.symm)
  simp only [encodeText, List.length_append] at hpayload ⊢
  omega

/-- A number that is not negative once it is cut down to 32 bits has lost bits only. -/
theorem toNat_truncated_le {n : Nat} (h : n % 0x100000000 < 0x80000000) :
    (UInt32.ofNat n).toInt32.toInt64.toUInt64.toNat ≤ n := by
  have hsign : (BitVec.ofNat 32 n).msb = false := by
    rw [BitVec.msb_eq_decide]
    simpa using h
  have hword : (UInt32.ofNat n).toInt32.toInt64.toUInt64.toNat =
      ((BitVec.ofNat 32 n).signExtend 64).toNat := rfl
  rw [hword, BitVec.signExtend_eq_setWidth_of_msb_false hsign]
  simp only [BitVec.toNat_setWidth, BitVec.toNat_ofNat]
  omega

theorem length_truncated_le {n : Nat} (h : Varint.Form n payload) :
    (Varint.encode (UInt32.ofNat n).toInt32.toInt64.toUInt64.toNat).length ≤ 2 * payload.length := by
  by_cases hsign : n % 0x100000000 < 0x80000000
  · have hle := h.spells.length_encode_le (toNat_truncated_le hsign)
    omega
  -- The sign bit alone takes five bytes, and no number takes more than ten.
  · have hfive : (Varint.encode 0x80000000).length = 5 := by decide +kernel
    have hshort := h.spells.length_encode_le (show 0x80000000 ≤ n by omega)
    have hten := (Varint.form_encode
      (UInt64.toNat_lt (UInt32.ofNat n).toInt32.toInt64.toUInt64)).length_le
    omega

theorem length_encodeInt32_le {value : Int32} (hkey : Key.Form ⟨number, type⟩ head)
    (h : type = .varint ∧ ∃ n, Varint.Form n payload ∧ value = (UInt32.ofNat n).toInt32) :
    (encodeInt32 number value).length ≤ 2 * (head ++ payload).length := by
  obtain ⟨rfl, n, hform, rfl⟩ := h
  have hhead := hkey.length_encode_le
  have hpayload := length_truncated_le hform
  simp only [encodeInt32, List.length_append]
  omega

end

variable {σ : Type} {levels : σ → List Nat} {encode : σ → List UInt8}

/-- A descriptor that has been read from some bytes, on top of one with an encoding of length `base`.
All its records are within the budget, and its encoding has grown by at most two bytes for one. -/
structure Bounded (levels : σ → List Nat) (encode : σ → List UInt8) (base : Nat) (d : σ)
    (bytes : List UInt8) : Prop where
  levels_le : ∀ level ∈ levels d, level ≤ recursionBudget
  length_le : (encode d).length ≤ base + 2 * bytes.length

namespace Bounded

variable {base : Nat} {d d' : σ} {before field : List UInt8}

theorem add_field (h : Bounded levels encode base d before)
    (hlevels : ∀ level ∈ levels d', level ≤ recursionBudget)
    (hlength : (encode d').length ≤ (encode d).length + 2 * field.length) :
    Bounded levels encode base d' (before ++ field) := by
  refine ⟨hlevels, ?_⟩
  have hbase := h.length_le
  rw [List.length_append]
  omega

theorem add_skipped (h : Bounded levels encode base d before) :
    Bounded levels encode base d (before ++ field) :=
  h.add_field h.levels_le (Nat.le_add_right _ _)

section

variable {number : Nat} {type : WireType} {head : List UInt8} (h : Bounded levels encode base d before)
  (hkey : Key.Form ⟨number, type⟩ head) (place : Place)

include h hkey

/-- A text is stored in a descriptor that becomes longer by the text at most. -/
theorem takesOnly_text {store : String → σ} (hlevels : ∀ t, levels (store t) = levels d)
    (hlength : ∀ t, (encode (store t)).length ≤ (encode d).length + (encodeText number t).length) :
    TakesOnly ((readText ⟨number, type⟩).within place >>= fun t => pure (store t))
      fun d' payload => Bounded levels encode base d' (before ++ (head ++ payload)) := by
  refine (takesOnly_readText _).store place fun t payload htext => ?_
  have hfield := length_encodeText_le hkey htext
  have hstore := hlength t
  refine h.add_field ?_ (by omega)
  rw [hlevels]
  exact h.levels_le

/-- A whole number is stored in a descriptor that becomes longer by the number at most. -/
theorem takesOnly_int32 {store : Int32 → σ} (hlevels : ∀ n, levels (store n) = levels d)
    (hlength : ∀ n, (encode (store n)).length ≤ (encode d).length + (encodeInt32 number n).length) :
    TakesOnly ((readInt32 ⟨number, type⟩).within place >>= fun n => pure (store n))
      fun d' payload => Bounded levels encode base d' (before ++ (head ++ payload)) := by
  refine (takesOnly_readInt32 _).store place fun n payload hnumber => ?_
  have hfield := length_encodeInt32_le hkey hnumber
  have hstore := hlength n
  refine h.add_field ?_ (by omega)
  rw [hlevels]
  exact h.levels_le

end

end Bounded

/-- A record that is read into an older one, or into an empty one if there is none. -/
theorem takesOnly_embedded (step : Nat → Step σ) {levels : Nat → σ → List Nat}
    {level budget number : Nat} {type : WireType} {head : List UInt8}
    (hbudget : level + budget = recursionBudget) (old : Option σ) (start : σ)
    (hstart : encode start = [])
    (hlevels : level + 1 ≤ recursionBudget →
      ∀ l ∈ levels (level + 1) (old.getD start), l ≤ recursionBudget)
    (hkeeps : ∀ {inner}, level + 1 + inner = recursionBudget → ∀ base,
      Keeps (step inner) (Bounded (levels (level + 1)) encode base))
    (hkey : Key.Form ⟨number, type⟩ head) :
    TakesOnly (readEmbedded (deeper step budget) (old.getD start) ⟨number, type⟩)
      fun record payload => (∀ l ∈ levels (level + 1) record, l ≤ recursionBudget) ∧
        (encodeEmbedded number (encode record)).length ≤
          (encodeOption (fun d => encodeEmbedded number (encode d)) old).length +
            2 * (head ++ payload).length := by
  have hread : TakesOnly (readEmbedded (deeper step budget) (old.getD start) ⟨number, type⟩) _ :=
    takesOnly_readEmbedded _ fun inner hinner =>
      ⟨hkeeps (by omega) _, hlevels (by omega), Nat.le_add_right (encode (old.getD start)).length _⟩
  refine hread.mono fun record payload hrecord => ?_
  obtain ⟨rfl, length, bytes, hform, hbounded, rfl⟩ := hrecord
  refine ⟨hbounded.levels_le, ?_⟩
  have hhead := hkey.length_encode_le
  have hlength := hform.spells.length_encode_le (Nat.le_refl _)
  have hcontent := hbounded.length_le
  have hmono := Varint.length_encode_mono hcontent
  have hsum := Varint.length_encode_add_le (encode (old.getD start)).length (2 * bytes.length)
  have htwice := Varint.length_encode_add_le bytes.length bytes.length
  rw [← Nat.two_mul] at htwice
  cases old with
  | some old =>
    simp only [encodeEmbedded, encodeOption_some, List.length_append, Option.getD_some] at *
    omega
  -- The key that was not there before pays for the length of an empty record.
  | none =>
    have hone : (Varint.encode 0).length = 1 := by decide +kernel
    have hpos : 0 < (Key.encode ⟨number, .lengthDelimited⟩).length := Varint.length_encode_pos _
    simp only [encodeEmbedded, encodeOption_none, List.length_append, Option.getD_none, hstart,
      List.length_nil, hone] at *
    omega

end Wire

theorem Pipe.keeps (level budget base : Nat) :
    Keeps (step budget) (Bounded (levels level) encode base) := by
  rintro p before ⟨number, type⟩ head hp hkey
  rw [step]
  split
  next hnumber =>
    obtain rfl : number = 1 := hnumber
    refine hp.takesOnly_text hkey _ (fun _ => rfl) fun _ => ?_
    simp only [encode, encodeOption_some]
    omega
  next => exact takesOnly_skip_pure _ _ fun _ => hp.add_skipped

theorem Options.keeps {level budget : Nat} (hbudget : level + budget = recursionBudget)
    (base : Nat) : Keeps (step budget) (Bounded (levels level) encode base) := by
  rintro o before ⟨number, type⟩ head ho hkey
  have hlevels := ho.levels_le
  simp only [levels, List.forall_mem_cons] at hlevels
  rw [step]
  split
  next hnumber =>
    obtain rfl : number = pipeNumber := hnumber
    have hread := takesOnly_embedded Pipe.step hbudget o.pipe {} rfl
      (fun hle => by cases hpipe : o.pipe <;> simpa [Pipe.levels] using hle)
      (fun _ => Pipe.keeps _ _) hkey
    refine hread.store _ fun pipe payload hpipe => ?_
    obtain ⟨hpipeLevels, hlength⟩ := hpipe
    exact ho.add_field (by simpa [levels] using ⟨hlevels.1, hpipeLevels⟩) hlength
  next => exact takesOnly_skip_pure _ _ fun _ => ho.add_skipped

theorem FieldDescriptor.keeps (level budget base : Nat) :
    Keeps (step budget) (Bounded (levels level) encode base) := by
  rintro d before ⟨number, type⟩ head hd hkey
  rw [step]
  split
  next hnumber =>
    obtain rfl : number = 1 := hnumber
    refine hd.takesOnly_text hkey _ (fun _ => rfl) fun _ => ?_
    simp only [encode, encodeOption_some, List.length_append]
    omega
  next hnumber =>
    obtain rfl : number = 3 := hnumber
    refine hd.takesOnly_int32 hkey _ (fun _ => rfl) fun _ => ?_
    simp only [encode, encodeOption_some, List.length_append]
    omega
  next hnumber =>
    obtain rfl : number = 4 := hnumber
    refine hd.takesOnly_int32 hkey _ (fun _ => rfl) fun _ => ?_
    simp only [encode, encodeOption_some, List.length_append]
    omega
  next hnumber =>
    obtain rfl : number = 5 := hnumber
    refine hd.takesOnly_int32 hkey _ (fun _ => rfl) fun _ => ?_
    simp only [encode, encodeOption_some, List.length_append]
    omega
  next hnumber =>
    obtain rfl : number = 6 := hnumber
    refine hd.takesOnly_text hkey _ (fun _ => rfl) fun _ => ?_
    simp only [encode, encodeOption_some, List.length_append]
    omega
  next => exact takesOnly_skip_pure _ _ fun _ => hd.add_skipped

theorem MessageDescriptor.forall_levels_iff {P : Nat → Prop} {level : Nat} {name : Option String}
    {fields : List FieldDescriptor} {nested : List MessageDescriptor} {options : Option Options} :
    (∀ l ∈ MessageDescriptor.levels level ⟨name, fields, nested, options⟩, P l) ↔
      P level ∧ (∀ d ∈ fields, ∀ l ∈ d.levels (level + 1), P l) ∧
        (∀ d ∈ nested, ∀ l ∈ d.levels (level + 1), P l) ∧
        ∀ o ∈ options, ∀ l ∈ o.levels (level + 1), P l := by
  simp only [levels, List.forall_mem_cons, List.forall_mem_append, List.forall_mem_flatMap,
    Option.mem_toList, Option.mem_def, and_assoc]

theorem MessageDescriptor.encode_empty : MessageDescriptor.encode {} = [] := by
  simp [encode, encodeOption_none]

/-- One more record at the end of a list of records. -/
theorem forall_mem_concat {α : Type} {P : α → Prop} {as : List α} {a : α} (has : ∀ b ∈ as, P b)
    (ha : P a) : ∀ b ∈ as ++ [a], P b :=
  List.forall_mem_append.mpr ⟨has, List.forall_mem_singleton.mpr ha⟩

theorem MessageDescriptor.keeps {level budget : Nat} (hbudget : level + budget = recursionBudget)
    (base : Nat) : Keeps (step budget) (Bounded (levels level) encode base) := by
  rintro d before ⟨number, type⟩ head hd hkey
  have hlevels := hd.levels_le
  obtain ⟨name, fields, nested, options⟩ := d
  obtain ⟨hlevel, hfields, hnested, hoptions⟩ := forall_levels_iff.mp hlevels
  rw [step.eq_def]
  split
  next hnumber =>
    obtain rfl : number = 1 := hnumber
    refine hd.takesOnly_text hkey _ (fun _ => by simp only [levels]) fun _ => ?_
    simp only [encode, encodeOption_some, List.length_append]
    omega
  next hnumber =>
    obtain rfl : number = 2 := hnumber
    have hread := takesOnly_embedded FieldDescriptor.step hbudget none {} rfl
      (fun hle => by simpa [FieldDescriptor.levels] using hle)
      (fun _ => FieldDescriptor.keeps _ _) hkey
    refine hread.store _ fun field payload hfield => ?_
    obtain ⟨hinner, hlength⟩ := hfield
    refine hd.add_field (forall_levels_iff.mpr
      ⟨hlevel, forall_mem_concat hfields hinner, hnested, hoptions⟩) ?_
    simp only [encode, encodeOption_none, length_flatten_concat, List.length_append,
      List.length_nil] at hlength ⊢
    omega
  -- A nested message is read with a smaller budget, and the recursion is on the budget.
  next hnumber =>
    obtain rfl : number = 3 := hnumber
    have hread := takesOnly_embedded step hbudget none {} encode_empty
      (fun hle => by simpa [levels] using hle) (fun hinner => keeps hinner) hkey
    rw [deeper_step] at hread
    refine hread.store _ fun inner payload hinner => ?_
    obtain ⟨hinner, hlength⟩ := hinner
    refine hd.add_field (forall_levels_iff.mpr
      ⟨hlevel, hfields, forall_mem_concat hnested hinner, hoptions⟩) ?_
    simp only [encode, encodeOption_none, length_flatten_concat, List.length_append,
      List.length_nil] at hlength ⊢
    omega
  next hnumber =>
    obtain rfl : number = 7 := hnumber
    have hread := takesOnly_embedded Options.step hbudget options {} rfl
      (fun hle => by
        cases options with
        | none => simpa [Options.levels] using hle
        | some o => exact hoptions o rfl)
      (fun hinner => Options.keeps hinner) hkey
    refine hread.store _ fun new payload hnew => ?_
    obtain ⟨hinner, hlength⟩ := hnew
    refine hd.add_field (forall_levels_iff.mpr ⟨hlevel, hfields, hnested, fun o ho => ?_⟩) ?_
    · obtain rfl : new = o := Option.some.inj ho
      exact hinner
    · simp only [encode, encodeOption_some, List.length_append] at hlength ⊢
      omega
  next => exact takesOnly_skip_pure _ _ fun _ => hd.add_skipped
termination_by budget

theorem FileDescriptor.keeps {level budget : Nat} (hbudget : level + budget = recursionBudget)
    (base : Nat) : Keeps (step budget) (Bounded (levels level) encode base) := by
  rintro d before ⟨number, type⟩ head hd hkey
  have hlevels := hd.levels_le
  simp only [levels, List.forall_mem_cons, List.forall_mem_flatMap] at hlevels
  rw [step]
  split
  next hnumber =>
    obtain rfl : number = 1 := hnumber
    refine hd.takesOnly_text hkey _ (fun _ => rfl) fun _ => ?_
    simp only [encode, encodeOption_some, List.length_append]
    omega
  next hnumber =>
    obtain rfl : number = 2 := hnumber
    refine hd.takesOnly_text hkey _ (fun _ => rfl) fun _ => ?_
    simp only [encode, encodeOption_some, List.length_append]
    omega
  next hnumber =>
    obtain rfl : number = 4 := hnumber
    have hread := takesOnly_embedded MessageDescriptor.step hbudget none {}
      MessageDescriptor.encode_empty
      (fun hle => by simpa [MessageDescriptor.levels] using hle)
      (fun hinner => MessageDescriptor.keeps hinner) hkey
    refine hread.store _ fun message payload hmessage => ?_
    obtain ⟨hinner, hlength⟩ := hmessage
    refine hd.add_field ?_ ?_
    · simp only [levels, List.forall_mem_cons, List.forall_mem_flatMap]
      exact ⟨hlevels.1, forall_mem_concat hlevels.2 hinner⟩
    · simp only [encode, encodeOption_none, length_flatten_concat, List.length_append,
        List.length_nil] at hlength ⊢
      omega
  next => exact takesOnly_skip_pure _ _ fun _ => hd.add_skipped

theorem RequestDescriptor.keeps (base : Nat) :
    Keeps (step recursionBudget) (Bounded levels encode base) := by
  rintro d before ⟨number, type⟩ head hd hkey
  have hlevels := hd.levels_le
  simp only [levels, List.forall_mem_flatMap] at hlevels
  rw [step]
  split
  next hnumber =>
    obtain rfl : number = 1 := hnumber
    refine hd.takesOnly_text hkey _ (fun _ => rfl) fun _ => ?_
    simp only [encode, length_flatten_concat, List.length_append]
    omega
  next hnumber =>
    obtain rfl : number = 2 := hnumber
    refine hd.takesOnly_text hkey _ (fun _ => rfl) fun _ => ?_
    simp only [encode, encodeOption_some, List.length_append]
    omega
  next hnumber =>
    obtain rfl : number = 15 := hnumber
    have hread := takesOnly_embedded FileDescriptor.step (Nat.zero_add recursionBudget) none {} rfl
      (fun hle => by simpa [FileDescriptor.levels] using hle)
      (fun hinner => FileDescriptor.keeps hinner) hkey
    refine hread.store _ fun file payload hfile => ?_
    obtain ⟨hinner, hlength⟩ := hfile
    refine hd.add_field ?_ ?_
    · simp only [levels, List.forall_mem_flatMap]
      exact forall_mem_concat hlevels hinner
    · simp only [encode, encodeOption_none, length_flatten_concat, List.length_append,
        List.length_nil] at hlength ⊢
      omega
  next => exact takesOnly_skip_pure _ _ fun _ => hd.add_skipped

namespace RequestDescriptor

theorem bounded_of_decode {bytes : List UInt8} {d : RequestDescriptor}
    (h : decode bytes = .ok d) : Bounded levels encode 0 d bytes :=
  (keeps 0).decodeRecord ⟨List.forall_mem_nil _, Nat.zero_le _⟩ h

/-- The bytes of the request that some bytes are decoded to. -/
def normalize (bytes : List UInt8) : Except DecodeError (List UInt8) := (decode bytes).map encode

/-- What decoding gives is given again by its own encoding, so that the request is the same too, and
to decode and encode twice is to do it once. -/
theorem decode_encode_of_decode {bytes : List UInt8} (hsize : bytes.length < 0x1000000000000000) :
    (∀ d, decode bytes = .ok d →
      decode d.encode = .ok d ∧ Request.decode d.encode = Request.decode bytes) ∧
    (normalize bytes).bind normalize = normalize bytes := by
  have hagain : ∀ d, decode bytes = .ok d → decode d.encode = .ok d := by
    intro d hd
    have hbounded := bounded_of_decode hd
    have hlength := hbounded.length_le
    have hform : d.content.Form 0 d.encode := form_encode (by omega)
    exact (d.runs hform).decodeRecord_eq_ok hbounded.levels_le
  refine ⟨fun d hd => ⟨hagain d hd, ?_⟩, ?_⟩
  · rw [Request.decode, Request.decode, hagain d hd, hd]
  · rw [normalize]
    cases hd : decode bytes with
    | error e => rfl
    | ok d =>
      change normalize d.encode = .ok d.encode
      rw [normalize, hagain d hd]
      rfl

/-- A message with a name that is given twice, a field with a negative number in five bytes, and
options in three pieces of which the last two hold a pipe; the length of the message is longer than
it has to be, and a varint under the number nine follows it. -/
def pieces : List UInt8 :=
  [0x7a, 0x24, 0x22, 0x9f, 0x00, 0x3a, 0x00, 0x3a, 0x07, 0xaa, 0xbb, 0x18, 0x03, 0x0a, 0x01, 0x78,
    0x3a, 0x04, 0xaa, 0xbb, 0x18, 0x00, 0x12, 0x06, 0x18, 0xff, 0xff, 0xff, 0xff, 0x0f,
    0x0a, 0x01, 0x41, 0x0a, 0x01, 0x42, 0x48, 0x05]

def whole : RequestDescriptor :=
  { files := [{ messages := [
    { name := some "B", fields := [{ number := some (-1) }],
      options := some { pipe := some { topic := some "x" } } }] }] }

theorem decode_encode_of_decode_pieces :
    pieces.length < 0x1000000000000000 ∧ decode pieces = .ok whole ∧
      decode whole.encode = .ok whole ∧ Request.decode whole.encode = Request.decode pieces := by
  have hsize : pieces.length < 0x1000000000000000 := by decide
  have hdecode : decode pieces = .ok whole := by with_unfolding_all rfl
  exact ⟨hsize, hdecode, (decode_encode_of_decode hsize).1 whole hdecode⟩

end RequestDescriptor

end TopicPlugin
