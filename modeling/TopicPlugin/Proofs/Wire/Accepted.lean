import TopicPlugin.Proofs.Wire.Content

/-!
# What readers take

A reader that succeeds has taken bytes from the front of what it was given. `TakesOnly` says which
bytes can go with which value, and it composes along the reader. Varints, keys and texts are taken
in their forms only, so there the relation is the one that says what is read; a skipped payload has
groups that are nested no deeper than the budget.

The fields of a record are taken by a loop. A relation between the record and the bytes read into it
that one field keeps holds after any number of them (`Keeps.runFields`), also inside a record that
is embedded in another one.
-/

namespace TopicPlugin.Wire

namespace Reader

variable {α β σ : Type}

/-- If the reader succeeds, it has taken bytes that are related to the value. -/
def TakesOnly (x : Reader α) (post : α → List UInt8 → Prop) : Prop :=
  ∀ i r a, x.run i = .ok (a, r) → ∃ taken, i.bytes = taken ++ r.bytes ∧ post a taken

theorem TakesOnly.mono {x : Reader α} {post weaker : α → List UInt8 → Prop}
    (h : TakesOnly x post) (himp : ∀ a taken, post a taken → weaker a taken) :
    TakesOnly x weaker := by
  intro i r a hrun
  obtain ⟨taken, hbytes, hpost⟩ := h i r a hrun
  exact ⟨taken, hbytes, himp a taken hpost⟩

theorem takesOnly_pure {a : α} {post : α → List UInt8 → Prop} (h : post a []) :
    TakesOnly (pure a) post := by
  intro i r b hrun
  cases hrun
  exact ⟨[], rfl, h⟩

theorem takesOnly_fail (cause : Cause) (post : α → List UInt8 → Prop) :
    TakesOnly (fail cause) post := by
  intro i r a hrun
  cases hrun

theorem TakesOnly.bind {x : Reader α} {f : α → Reader β} {mid : α → List UInt8 → Prop}
    {post : β → List UInt8 → Prop} (hx : TakesOnly x mid)
    (hf : ∀ a first, mid a first → TakesOnly (f a) fun b second => post b (first ++ second)) :
    TakesOnly (x >>= f) post := by
  intro i r b hrun
  rw [run_bind] at hrun
  cases ha : x.run i with
  | error e =>
    rw [ha] at hrun
    cases hrun
  | ok am =>
    obtain ⟨a, m⟩ := am
    rw [ha] at hrun
    obtain ⟨first, hfirst, hmid⟩ := hx i m a ha
    obtain ⟨second, hsecond, hpost⟩ := hf a first hmid m r b hrun
    exact ⟨first ++ second, by rw [hfirst, hsecond, List.append_assoc], hpost⟩

theorem takesOnly_check (condition : Prop) [Decidable condition] (cause : Cause) :
    TakesOnly (check condition cause) fun _ taken => condition ∧ taken = [] := by
  rw [check]
  split
  next h => exact takesOnly_pure ⟨h, rfl⟩
  next => exact takesOnly_fail _ _

theorem takesOnly_byte (cause : Cause) : TakesOnly (byte cause) fun b taken => taken = [b] := by
  rintro ⟨_ | ⟨c, bytes⟩, size, hsize⟩ r b hrun
  · cases hrun
  · cases hrun
    exact ⟨[c], rfl, rfl⟩

theorem takesOnly_take (count : Nat) :
    TakesOnly (take count) fun bytes taken => taken = bytes ∧ bytes.length = count := by
  intro i r bytes hrun
  simp only [take] at hrun
  split at hrun
  next hle =>
    cases hrun
    have hlength : count ≤ i.bytes.length := i.size_eq ▸ hle
    exact ⟨i.bytes.take count, (List.take_append_drop count i.bytes).symm, rfl,
      List.length_take_of_le hlength⟩
  next => cases hrun

theorem TakesOnly.within {x : Reader α} {post : α → List UInt8 → Prop} (h : TakesOnly x post)
    (place : Place) : TakesOnly (x.within place) post := by
  intro i r a hrun
  cases hx : x.run i with
  | error e => simp [Reader.within, hx] at hrun
  | ok ar =>
    simp only [Reader.within, hx, Except.ok.injEq] at hrun
    exact h i r a (hrun ▸ hx)

/-- What is read under a place may be stored in a record. -/
theorem TakesOnly.store {x : Reader α} {post : α → List UInt8 → Prop} (h : TakesOnly x post)
    (place : Place) {store : α → σ} {inv : σ → List UInt8 → Prop}
    (hstore : ∀ a taken, post a taken → inv (store a) taken) :
    TakesOnly (x.within place >>= fun a => pure (store a)) inv := by
  refine (h.within place).bind fun a taken hpost => takesOnly_pure ?_
  rw [List.append_nil]
  exact hstore a taken hpost

end Reader

open Reader

namespace Varint

theorem bound_pos (count : Nat) : 0 < bound count := by
  induction count with
  | zero => exact Nat.two_pos
  | succ count ih => exact Nat.mul_pos (by decide) ih

theorem takesOnly_readUpTo (count : Nat) :
    TakesOnly (readUpTo (count + 1)) fun n bytes =>
      Spells n bytes ∧ bytes.length ≤ count + 1 ∧ n < bound count := by
  induction count with
  | zero =>
    refine (takesOnly_byte _).bind fun b first hfirst => ?_
    subst hfirst
    split
    next => exact takesOnly_fail _ _
    next hone =>
      split
      next hb =>
        have hle : b.toNat ≤ 1 := UInt8.le_iff_toNat_le.mp (UInt8.not_lt.mp fun h => hone ⟨rfl, h⟩)
        exact takesOnly_pure ⟨.last hb, Nat.le_refl 1, Nat.lt_succ_of_le hle⟩
      next => exact (takesOnly_fail _ fun _ _ => False).bind fun _ _ h => h.elim
  | succ count ih =>
    rw [readUpTo]
    refine (takesOnly_byte _).bind fun b first hfirst => ?_
    subst hfirst
    have hpos := bound_pos count
    rw [if_neg (by omega), bound]
    split
    next hb =>
      have hlt : b.toNat < 128 := UInt8.lt_iff_toNat_lt.mp hb
      exact takesOnly_pure ⟨.last hb, Nat.le_add_left 1 _, by omega⟩
    next hb =>
      refine ih.bind fun upper bytes hupper => takesOnly_pure ?_
      obtain ⟨hspells, hlength, hlt⟩ := hupper
      have hbyte := b.toNat_lt
      rw [List.append_nil, List.singleton_append]
      exact ⟨.more (UInt8.not_lt.mp hb) hspells, Nat.succ_le_succ hlength, by omega⟩

theorem takesOnly_read : TakesOnly read Form :=
  (takesOnly_readUpTo 9).mono fun _ _ h => ⟨h.1, h.2.1, h.2.2⟩

end Varint

namespace Key

theorem form_of_ofCode {code : Nat} {key : Key} {bytes : List UInt8}
    (h : ofCode code = .ok key) (hform : Varint.Form code bytes) : Form key bytes := by
  unfold ofCode at h
  split at h
  next => cases h
  next hle =>
    cases htype : WireType.ofCode? (code % 8) with
    | none =>
      rw [htype] at h
      cases h
    | some type =>
      rw [htype] at h
      have hcode : type.code = code % 8 := WireType.code_of_ofCode? htype
      by_cases hzero : code / 8 = 0
      · simp only [hzero, if_true] at h
        cases h
      · simp only [hzero, if_false, Except.ok.injEq] at h
        subst h
        refine ⟨Nat.pos_of_ne_zero hzero, ?_, ?_⟩
        · simp only
          omega
        · rwa [hcode, Nat.div_add_mod]

theorem takesOnly_read : TakesOnly read Form := by
  refine Varint.takesOnly_read.bind fun code bytes hform => ?_
  cases hkey : ofCode code with
  | error cause => exact takesOnly_fail _ _
  | ok key =>
    refine takesOnly_pure ?_
    rw [List.append_nil]
    exact form_of_ofCode hkey hform

theorem takesOnly_expect (key : Key) (type : WireType) :
    TakesOnly (key.expect type) fun _ taken => key.type = type ∧ taken = [] :=
  takesOnly_check _ _

end Key

theorem takesOnly_skipGroup {field : Key → List UInt8 → Prop} {skipField : Key → Reader Unit}
    (hfield : ∀ key, TakesOnly (skipField key) fun _ payload => field key payload) (number : Nat) :
    TakesOnly (skipGroup skipField number) fun _ bytes => GroupForm field number bytes := by
  intro i r a hrun
  change runGroup skipField number i = .ok (a, r) at hrun
  fun_induction runGroup skipField number i with
  | case1 => cases hrun
  | case2 i key m hkey hend hnumber =>
    cases hrun
    obtain ⟨head, hhead, hform⟩ := Key.takesOnly_read i _ key hkey
    have heq : key = ⟨number, .endGroup⟩ := by rw [← hnumber, ← hend]
    exact ⟨head, hhead, .close (heq ▸ hform)⟩
  | case3 => cases hrun
  | case4 => cases hrun
  | case5 i key m hkey _ m' hskip ih =>
    obtain ⟨head, hhead, hform⟩ := Key.takesOnly_read i m key hkey
    obtain ⟨payload, hpayload, hfieldPayload⟩ := hfield key m m' () hskip
    obtain ⟨rest, hrest, hgroup⟩ := ih hrun
    refine ⟨head ++ (payload ++ rest), ?_, .cons hform hfieldPayload hgroup⟩
    rw [hhead, hpayload, hrest, List.append_assoc, List.append_assoc]

/-- What is skipped is a payload whose groups are nested no deeper than the budget. -/
theorem takesOnly_skip (budget : Nat) (key : Key) :
    TakesOnly (skip budget key) fun _ payload => PayloadForm budget key payload := by
  induction budget generalizing key with
  | zero => exact takesOnly_fail _ _
  | succ budget ih =>
    obtain ⟨number, type⟩ := key
    cases type with
    | varint =>
      refine Varint.takesOnly_read.bind fun n bytes hform => takesOnly_pure ?_
      rw [List.append_nil]
      exact ⟨n, hform⟩
    | sixtyFourBit =>
      refine (takesOnly_take 8).bind fun bytes taken htaken => takesOnly_pure ?_
      obtain ⟨rfl, hlength⟩ := htaken
      rw [List.append_nil]
      exact hlength
    | lengthDelimited =>
      refine Varint.takesOnly_read.bind fun n length hform => ?_
      refine (takesOnly_take n).bind fun bytes taken htaken => takesOnly_pure ?_
      obtain ⟨rfl, rfl⟩ := htaken
      rw [List.append_nil]
      exact ⟨length, taken, hform, trivial, rfl⟩
    | startGroup => exact takesOnly_skipGroup ih number
    | endGroup => exact takesOnly_fail _ _
    | thirtyTwoBit =>
      refine (takesOnly_take 4).bind fun bytes taken htaken => takesOnly_pure ?_
      obtain ⟨rfl, hlength⟩ := htaken
      rw [List.append_nil]
      exact hlength

/-- A field that is skipped leaves the record as it is. -/
theorem takesOnly_skip_pure {σ : Type} {inv : σ → List UInt8 → Prop} {record : σ} (budget : Nat)
    (key : Key) (h : ∀ payload, inv record payload) :
    TakesOnly (do skip budget key; pure record) inv :=
  (takesOnly_skip budget key).bind fun _ _ _ => takesOnly_pure (h _)

theorem eq_bytesOfText {bytes : List UInt8} {t : String} (h : textOfBytes? bytes = some t) :
    bytes = bytesOfText t := by
  unfold textOfBytes? String.fromUTF8? at h
  split at h
  next hvalid =>
    cases h
    simp [bytesOfText, String.fromUTF8]
  next => cases h

theorem takesOnly_readText (key : Key) :
    TakesOnly (readText key) fun t payload =>
      key.type = .lengthDelimited ∧ Delimited (· = bytesOfText t) payload := by
  refine (key.takesOnly_expect _).bind fun _ first hfirst => ?_
  obtain ⟨htype, rfl⟩ := hfirst
  refine Varint.takesOnly_read.bind fun n length hform => ?_
  refine (takesOnly_take n).bind fun bytes taken htaken => ?_
  obtain ⟨rfl, rfl⟩ := htaken
  cases ht : textOfBytes? taken with
  | none => exact takesOnly_fail _ _
  | some t =>
    refine takesOnly_pure ⟨htype, length, taken, hform, eq_bytesOfText ht, ?_⟩
    rw [List.append_nil, List.nil_append]

theorem takesOnly_varint {α : Type} (key : Key) (value : Nat → α) :
    TakesOnly (do key.expect .varint; let n ← Varint.read; pure (value n)) fun a payload =>
      key.type = .varint ∧ ∃ n, Varint.Form n payload ∧ a = value n := by
  refine (key.takesOnly_expect _).bind fun _ first hfirst => ?_
  obtain ⟨htype, rfl⟩ := hfirst
  refine Varint.takesOnly_read.bind fun n bytes hform => takesOnly_pure ⟨htype, n, ?_, rfl⟩
  rwa [List.append_nil, List.nil_append]

theorem takesOnly_readInt32 (key : Key) :
    TakesOnly (readInt32 key) fun value payload =>
      key.type = .varint ∧ ∃ n, Varint.Form n payload ∧ value = (UInt32.ofNat n).toInt32 :=
  takesOnly_varint key fun n => (UInt32.ofNat n).toInt32

theorem takesOnly_readUInt64 (key : Key) :
    TakesOnly (readUInt64 key) fun value payload =>
      key.type = .varint ∧ ∃ n, Varint.Form n payload ∧ value = UInt64.ofNat n :=
  takesOnly_varint key UInt64.ofNat

section

variable {σ : Type} {inv : σ → List UInt8 → Prop}

/-- A field keeps a relation between a record and the bytes that have been read into it. -/
def Keeps (step : Step σ) (inv : σ → List UInt8 → Prop) : Prop :=
  ∀ record before key head, inv record before → Key.Form key head →
    TakesOnly (step record key) fun record' payload => inv record' (before ++ (head ++ payload))

variable {step : Step σ} {stop : Nat} {start record result : σ}

/-- A loop over fields keeps what each field keeps, and ends where it has to. -/
theorem Keeps.runFields (h : Keeps step inv) {before : List UInt8} {i r : Input}
    (hrecord : inv record before) (hrun : runFields step stop record i = .ok (result, r)) :
    r.size ≤ stop ∧ ∃ taken, i.bytes = taken ++ r.bytes ∧ inv result (before ++ taken) := by
  fun_induction Wire.runFields step stop record i generalizing before with
  | case1 record i hstop =>
    cases hrun
    exact ⟨hstop, [], rfl, by rwa [List.append_nil]⟩
  | case2 => cases hrun
  | case3 => cases hrun
  | case4 record i _ key m hkey record' m' hstep ih =>
    obtain ⟨head, hhead, hform⟩ := Key.takesOnly_read i m key hkey
    obtain ⟨payload, hpayload, hrecord'⟩ := h record before key head hrecord hform m m' record' hstep
    obtain ⟨hsize, rest, hrest, hresult⟩ := ih hrecord' hrun
    refine ⟨hsize, head ++ (payload ++ rest), ?_, ?_⟩
    · rw [hhead, hpayload, hrest, List.append_assoc, List.append_assoc]
    · rwa [List.append_assoc, List.append_assoc] at hresult

theorem Keeps.decodeRecord (h : Keeps step inv) {bytes : List UInt8} (hstart : inv start [])
    (hdecode : decodeRecord step start bytes = .ok result) : inv result bytes := by
  cases hrun : (readFields step 0 start).run (.ofBytes bytes) with
  | error e =>
    rw [Wire.decodeRecord, hrun] at hdecode
    cases hdecode
  | ok final =>
    obtain ⟨record, r⟩ := final
    rw [Wire.decodeRecord, hrun] at hdecode
    cases hdecode
    obtain ⟨hsize, taken, hbytes, hinv⟩ := h.runFields hstart hrun
    have hnil : r.bytes = [] := List.length_eq_zero_iff.mp (r.size_eq ▸ Nat.le_zero.mp hsize)
    rw [hnil, List.append_nil] at hbytes
    rwa [show bytes = taken from hbytes]

/-- What follows the length of an embedded record. -/
theorem Keeps.takesOnly_content (h : Keeps step inv) (hstart : inv start []) (length : Nat) :
    TakesOnly (do
      let available ← Reader.remaining
      Reader.check (length ≤ available) .underflow
      let record ← readFields step (available - length) start
      let left ← Reader.remaining
      Reader.check (left = available - length) .lengthExceeded
      pure record) fun record bytes => bytes.length = length ∧ inv record bytes := by
  intro i r record hrun
  simp only [Reader.run_bind, Reader.remaining, Reader.check] at hrun
  by_cases hle : length ≤ i.size
  · simp only [hle, if_true, Reader.run_pure] at hrun
    cases hfields : (readFields step (i.size - length) start).run i with
    | error e =>
      rw [hfields] at hrun
      cases hrun
    | ok recordRest =>
      obtain ⟨record', m⟩ := recordRest
      rw [hfields] at hrun
      by_cases hleft : m.size = i.size - length
      · simp only [hleft, if_true, Reader.run_pure, Except.ok.injEq, Prod.mk.injEq] at hrun
        obtain ⟨rfl, rfl⟩ := hrun
        obtain ⟨-, taken, hbytes, hinv⟩ := h.runFields hstart hfields
        refine ⟨taken, hbytes, ?_, hinv⟩
        have hsize := congrArg List.length hbytes
        rw [List.length_append, ← i.size_eq, ← m.size_eq] at hsize
        omega
      · simp only [hleft, if_false, Reader.run_fail] at hrun
        cases hrun
  · simp only [hle, if_false, Reader.run_fail] at hrun
    cases hrun

/-- The bytes of an embedded record are related to it as its own loop keeps them. -/
theorem takesOnly_readEmbedded {step : Nat → Step σ} {budget : Nat} (key : Key)
    (h : ∀ inner, budget = inner + 1 → Keeps (step inner) inv ∧ inv start []) :
    TakesOnly (readEmbedded (deeper step budget) start key) fun record payload =>
      key.type = .lengthDelimited ∧ Delimited (inv record) payload := by
  refine (key.takesOnly_expect _).bind fun _ first hfirst => ?_
  obtain ⟨htype, rfl⟩ := hfirst
  cases budget with
  | zero => exact takesOnly_fail _ _
  | succ inner =>
    obtain ⟨hkeeps, hstart⟩ := h inner rfl
    refine Varint.takesOnly_read.bind fun n length hform => ?_
    refine (hkeeps.takesOnly_content hstart n).mono fun record bytes hcontent => ?_
    obtain ⟨rfl, hinv⟩ := hcontent
    exact ⟨htype, length, bytes, hform, hinv, rfl⟩

end

end TopicPlugin.Wire
