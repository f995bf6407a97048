import TopicPlugin.Wire.Payload
import TopicPlugin.Wire.Skip

/-!
# The forms that fields may take

A number can be written as a varint in more than one way, and so can everything that is built from
varints: keys, lengths, texts, and the payloads of fields whose number means nothing to the record
they stand in. Each form is a relation between a value and bytes, with no mention of a reader; a
reader takes exactly the bytes of a form, whatever follows, and gives the value (`Form.reads` for
varints and for keys, `PayloadForm.reads` for what is skipped).
-/

namespace TopicPlugin.Wire

namespace Varint

/-- Bytes that spell a number in groups of seven bits from the lowest up. The last byte alone is
below 128, and the groups on top may be zero. -/
inductive Spells : Nat → List UInt8 → Prop
  | last {b : UInt8} (hb : b < 128) : Spells b.toNat [b]
  | more {b : UInt8} {upper : Nat} {bytes : List UInt8} (hb : 128 ≤ b) (h : Spells upper bytes) :
      Spells (b.toNat - 128 + 128 * upper) (b :: bytes)

/-- Ten bytes at most, for a number of 64 bits. -/
structure Form (n : Nat) (bytes : List UInt8) : Prop where
  spells : Spells n bytes
  length_le : bytes.length ≤ 10
  lt : n < 0x10000000000000000

theorem Spells.reads {n : Nat} {bytes : List UInt8} (h : Spells n bytes) {count : Nat}
    (hlength : bytes.length ≤ count + 1) (hn : n < bound count) :
    Reader.Reads (readUpTo (count + 1)) n bytes := by
  induction h generalizing count with
  | @last b hb =>
    have hone : ¬(count = 0 ∧ 1 < b) := by
      rintro ⟨rfl, hlt⟩
      have htwo : b.toNat < 2 := hn
      have hgt : 1 < b.toNat := UInt8.lt_iff_toNat_lt.mp hlt
      omega
    rw [readUpTo]
    refine Reader.Reads.bind_last (Reader.reads_byte _ _) ?_
    rw [if_neg hone, if_pos hb]
    exact Reader.reads_pure b.toNat
  | @more b upper bytes hb hspells ih =>
    have hlow := UInt8.le_iff_toNat_le.mp hb
    cases count with
    | zero =>
      have hnil : bytes = [] := List.length_eq_zero_iff.mp (by simpa using hlength)
      rw [hnil] at hspells
      cases hspells
    | succ count =>
      have hupper : upper < bound count := by
        rw [bound] at hn
        omega
      rw [readUpTo]
      refine Reader.Reads.bind (Reader.reads_byte _ _) ?_
      rw [if_neg (by omega), if_neg (UInt8.not_lt.mpr hb)]
      refine Reader.Reads.bind_last (ih (by simpa using hlength) hupper) ?_
      exact Reader.reads_pure _

theorem Form.reads {n : Nat} {bytes : List UInt8} (h : Form n bytes) : Reader.Reads read n bytes :=
  h.spells.reads h.length_le h.lt

theorem spells_encode (n : Nat) : Spells n (encode n) := by
  induction n using Nat.strongRecOn with
  | ind n ih =>
    rw [encode]
    split
    next hn =>
      have hb : (UInt8.ofNat n).toNat = n := toNat_ofNat_of_lt (by omega)
      have hlast : Spells (UInt8.ofNat n).toNat [UInt8.ofNat n] :=
        .last (UInt8.lt_iff_toNat_lt.mpr (by simpa [hb] using hn))
      rwa [hb] at hlast
    next hn =>
      have hb : (UInt8.ofNat (n % 128 + 128)).toNat = n % 128 + 128 :=
        toNat_ofNat_of_lt (by omega)
      have hlow : 128 ≤ UInt8.ofNat (n % 128 + 128) :=
        UInt8.le_iff_toNat_le.mpr (by rw [hb]; exact Nat.le_add_left _ _)
      have hmore := Spells.more hlow (ih (n / 128) (by omega))
      rwa [hb, show n % 128 + 128 - 128 + 128 * (n / 128) = n by omega] at hmore

theorem length_encode_le {count n : Nat} (h : n < bound count) :
    (encode n).length ≤ count + 1 := by
  induction count generalizing n with
  | zero =>
    have hn : n < 2 := h
    rw [encode, if_pos (by omega)]
    simp
  | succ count ih =>
    rw [encode]
    split
    · simp
    · rw [bound] at h
      have hupper := ih (n := n / 128) (by omega)
      simpa using hupper

/-- The form that a writer chooses. -/
theorem form_encode {n : Nat} (h : n < 0x10000000000000000) : Form n (encode n) := by
  have hbound : n < bound 9 := h
  exact ⟨spells_encode n, length_encode_le hbound, h⟩

theorem form_single {n : Nat} (h : n < 128) : Form n [UInt8.ofNat n] := by
  have hform := form_encode (n := n) (by omega)
  rwa [encode, if_pos h] at hform

/-- No form of a number is shorter than the one chosen for it or for a smaller number. -/
theorem Spells.length_encode_le {m n : Nat} {bytes : List UInt8} (h : Spells m bytes)
    (hn : n ≤ m) : (encode n).length ≤ bytes.length := by
  induction h generalizing n with
  | @last b hb =>
    have hlt : b.toNat < 128 := UInt8.lt_iff_toNat_lt.mp hb
    rw [encode, if_pos (by omega)]
    simp
  | @more b upper bytes hb _ ih =>
    have hbyte := b.toNat_lt
    rw [encode]
    split
    · simp
    · have hupper := ih (n := n / 128) (by omega)
      simpa using hupper

theorem length_encode_mono {m n : Nat} (h : m ≤ n) : (encode m).length ≤ (encode n).length :=
  (spells_encode n).length_encode_le h

theorem length_encode_eq (n : Nat) :
    (encode n).length = if n < 128 then 1 else (encode (n / 128)).length + 1 := by
  rw [encode]
  split <;> rfl

theorem length_encode_pos (n : Nat) : 0 < (encode n).length := by
  rw [length_encode_eq]
  split
  · exact Nat.one_pos
  · exact Nat.succ_pos _

theorem length_encode_add_le (m n : Nat) :
    (encode (m + n)).length ≤ (encode m).length + (encode n).length := by
  induction m using Nat.strongRecOn with
  | ind m ih =>
    rw [length_encode_eq (m + n), length_encode_eq m]
    by_cases hsum : m + n < 128
    · rw [if_pos hsum, if_pos (by omega)]
      exact Nat.le_add_right 1 _
    · rw [if_neg hsum]
      by_cases hm : m < 128
      · have hupper := length_encode_mono (show (m + n) / 128 ≤ n by omega)
        rw [if_pos hm]
        omega
      · have hupper := length_encode_mono (show (m + n) / 128 ≤ m / 128 + n by omega)
        have hrest := ih (m / 128) (by omega)
        rw [if_neg hm]
        omega

end Varint

namespace Key

/-- A number that a field can have, and the varint of its code. -/
structure Form (key : Key) (bytes : List UInt8) : Prop where
  number_pos : 0 < key.number
  number_lt : key.number < 0x20000000
  varint : Varint.Form (8 * key.number + key.type.code) bytes

theorem Form.reads {key : Key} {bytes : List UInt8} (h : Form key bytes) :
    Reader.Reads read key bytes := by
  refine Reader.Reads.bind_last h.varint.reads ?_
  rw [ofCode_encode h.number_pos h.number_lt]
  exact Reader.reads_pure key

theorem form_encode {key : Key} (hpos : 0 < key.number) (hlt : key.number < 0x20000000) :
    Form key key.encode := by
  have hcode := key.type.code_le
  exact ⟨hpos, hlt, Varint.form_encode (by omega)⟩

theorem form_single {key : Key} (hpos : 0 < key.number)
    (h : 8 * key.number + key.type.code < 128) :
    Form key [UInt8.ofNat (8 * key.number + key.type.code)] :=
  ⟨hpos, by omega, Varint.form_single h⟩

theorem Form.length_encode_le {key : Key} {bytes : List UInt8} (h : Form key bytes) :
    key.encode.length ≤ bytes.length :=
  h.varint.spells.length_encode_le (Nat.le_refl _)

end Key

/-- A length and as many bytes of some content. -/
def Delimited (content : List UInt8 → Prop) (payload : List UInt8) : Prop :=
  ∃ length bytes, Varint.Form bytes.length length ∧ content bytes ∧ payload = length ++ bytes

/-- The payloads that a key may have in front of it where its number means nothing; `group` is what
may follow the start of a group with a number. -/
def PayloadWith (group : Nat → List UInt8 → Prop) (key : Key) (payload : List UInt8) : Prop :=
  match key.type with
  | .varint => ∃ n, Varint.Form n payload
  | .sixtyFourBit => payload.length = 8
  | .lengthDelimited => Delimited (fun _ => True) payload
  | .startGroup => group key.number payload
  | .endGroup => False
  | .thirtyTwoBit => payload.length = 4

/-- The fields of a group and the end with its number. -/
inductive GroupForm (field : Key → List UInt8 → Prop) (number : Nat) : List UInt8 → Prop
  | close {head : List UInt8} (hkey : Key.Form ⟨number, .endGroup⟩ head) :
      GroupForm field number head
  | cons {key : Key} {head payload rest : List UInt8} (hkey : Key.Form key head)
      (hpayload : field key payload) (hrest : GroupForm field number rest) :
      GroupForm field number (head ++ (payload ++ rest))

/-- Payloads with groups that are nested no deeper than a number of levels. -/
def PayloadForm : Nat → Key → List UInt8 → Prop
  | 0 => PayloadWith fun _ _ => False
  | depth + 1 => PayloadWith (GroupForm (PayloadForm depth))

theorem runGroup_of_key {skipField : Key → Reader Unit} {number : Nat} {key : Key} {i m : Input}
    (hkey : Key.read.run i = .ok (key, m)) :
    runGroup skipField number i =
      if key.type = .endGroup then
        if key.number = number then .ok ((), m) else .error { cause := .unexpectedEndGroup }
      else match (skipField key).run m with
        | .error e => .error e
        | .ok ((), r) => runGroup skipField number r := by
  rw [runGroup]
  split
  next e he =>
    rw [hkey] at he
    cases he
  next key' m' hm =>
    rw [hkey] at hm
    obtain ⟨rfl, rfl⟩ := Prod.mk.inj (Except.ok.inj hm)
    by_cases hend : key.type = .endGroup
    · rw [if_pos hend, if_pos hend]
    · rw [if_neg hend, if_neg hend]
      split
      next e he => rw [he]
      next r hr => rw [hr]

theorem reads_skipGroup {field : Key → List UInt8 → Prop} {skipField : Key → Reader Unit}
    (hfield : ∀ {key payload}, field key payload → Reader.Reads (skipField key) () payload)
    (hend : ∀ {key payload}, field key payload → key.type ≠ .endGroup)
    {number : Nat} {bytes : List UInt8} (h : GroupForm field number bytes) :
    Reader.Reads (skipGroup skipField number) () bytes := by
  induction h with
  | close hkey =>
    intro rest
    exact (runGroup_of_key (hkey.reads rest)).trans (by rw [if_pos rfl, if_pos rfl])
  | @cons key head payload rest hkey hpayload _ ih =>
    intro after
    rw [List.append_assoc, List.append_assoc]
    refine (runGroup_of_key (hkey.reads _)).trans ?_
    rw [if_neg (hend hpayload), hfield hpayload]
    exact ih after

theorem PayloadWith.type_ne_endGroup {group : Nat → List UInt8 → Prop} {key : Key}
    {payload : List UInt8} (h : PayloadWith group key payload) : key.type ≠ .endGroup := by
  intro hend
  rw [PayloadWith, hend] at h
  exact h

theorem PayloadForm.type_ne_endGroup {depth : Nat} {key : Key} {payload : List UInt8}
    (h : PayloadForm depth key payload) : key.type ≠ .endGroup := by
  cases depth with
  | zero => exact PayloadWith.type_ne_endGroup h
  | succ depth => exact PayloadWith.type_ne_endGroup h

theorem PayloadWith.reads {group : Nat → List UInt8 → Prop} {budget : Nat}
    (hgroup : ∀ {number bytes}, group number bytes →
      Reader.Reads (skipGroup (skip budget) number) () bytes)
    {key : Key} {payload : List UInt8} (h : PayloadWith group key payload) :
    Reader.Reads (skip (budget + 1) key) () payload := by
  obtain ⟨number, type⟩ := key
  cases type with
  | varint =>
    obtain ⟨n, hn⟩ := h
    exact hn.reads.bind_last (Reader.reads_pure ())
  | sixtyFourBit =>
    have htake := Reader.reads_take payload
    rw [show payload.length = 8 from h] at htake
    exact htake.bind_last (Reader.reads_pure ())
  | lengthDelimited =>
    obtain ⟨length, bytes, hlength, -, rfl⟩ := h
    exact hlength.reads.bind ((Reader.reads_take bytes).bind_last (Reader.reads_pure ()))
  | startGroup => exact hgroup h
  | endGroup => exact h.elim
  | thirtyTwoBit =>
    have htake := Reader.reads_take payload
    rw [show payload.length = 4 from h] at htake
    exact htake.bind_last (Reader.reads_pure ())

/-- Skipping takes exactly the payload of a field if the budget is above the depth of its groups. -/
theorem PayloadForm.reads {depth budget : Nat} {key : Key} {payload : List UInt8}
    (h : PayloadForm depth key payload) (hbudget : depth < budget) :
    Reader.Reads (skip budget key) () payload := by
  induction depth generalizing budget key payload with
  | zero =>
    obtain ⟨budget, rfl⟩ := Nat.exists_eq_succ_of_ne_zero (Nat.ne_of_gt hbudget)
    exact PayloadWith.reads (fun hgroup => hgroup.elim) h
  | succ depth ih =>
    obtain ⟨budget, rfl⟩ := Nat.exists_eq_succ_of_ne_zero (Nat.ne_zero_of_lt hbudget)
    refine PayloadWith.reads (fun hgroup => ?_) h
    exact reads_skipGroup (fun hfield => ih hfield (Nat.lt_of_succ_lt_succ hbudget))
      PayloadForm.type_ne_endGroup hgroup

end TopicPlugin.Wire
