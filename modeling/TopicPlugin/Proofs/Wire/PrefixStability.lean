import TopicPlugin.Proofs.Wire.Accepted
import TopicPlugin.Proofs.Wire.Assembly

/-!
# What readers make of a longer input

A reader that succeeds makes the same of a longer input: it takes the same bytes, gives the same
value and leaves what was appended (`Stable`). Every length is checked against all the bytes there
are, so this is not plain; but each check that was passed is passed again with more bytes behind.

An embedded record asks how many bytes are left and reads until fewer are. Neither number is the
same in a longer input, so the loop over the fields is described by where it gets (`LeadsTo`) and
not by the number at which it stops. A whole record is then read from two pieces of input as from
one: the first piece leads to a record, and the second is read into it.
-/

namespace TopicPlugin.Wire

open Reader

namespace Reader

variable {α β σ : Type} {x : Reader α}

/-- If the reader succeeds, it would take the same bytes to the same value with others behind. -/
def Stable (x : Reader α) : Prop := TakesOnly x (Reads x)

theorem stable_pure (a : α) : Stable (pure a) := takesOnly_pure (reads_pure a)

theorem stable_fail (cause : Cause) : Stable (fail cause : Reader α) := takesOnly_fail cause _

theorem Stable.bind {f : α → Reader β} (hx : Stable x) (hf : ∀ a, Stable (f a)) :
    Stable (x >>= f) :=
  TakesOnly.bind hx fun a _ hfirst => (hf a).mono fun _ _ hsecond => hfirst.bind hsecond

theorem stable_check (condition : Prop) [Decidable condition] (cause : Cause) :
    Stable (check condition cause) := by
  rw [check]
  split
  next => exact stable_pure ()
  next => exact stable_fail cause

theorem stable_take (count : Nat) : Stable (take count) := by
  refine (takesOnly_take count).mono fun bytes taken htaken => ?_
  obtain ⟨rfl, rfl⟩ := htaken
  exact reads_take taken

theorem Stable.within (h : Stable x) (place : Place) : Stable (x.within place) :=
  (TakesOnly.within h place).mono fun _ _ hreads => hreads.within place

/-- What is read under a place may be stored in a record. -/
theorem Stable.store (h : Stable x) (place : Place) (store : α → σ) :
    Stable (x.within place >>= fun a => pure (store a)) :=
  (h.within place).bind fun a => stable_pure (store a)

end Reader

theorem Varint.stable_read : Stable Varint.read :=
  Varint.takesOnly_read.mono fun _ _ hform => hform.reads

theorem stable_readText (key : Key) : Stable (readText key) := by
  refine (stable_check _ _).bind fun _ => Varint.stable_read.bind fun length => ?_
  refine (stable_take length).bind fun bytes => ?_
  cases textOfBytes? bytes with
  | none => exact stable_fail _
  | some text => exact stable_pure text

theorem stable_readInt32 (key : Key) : Stable (readInt32 key) :=
  (stable_check _ _).bind fun _ => Varint.stable_read.bind fun _ => stable_pure _

theorem type_ne_endGroup_of_reads_skip {budget : Nat} {key : Key} {payload : List UInt8}
    (h : Reads (skip budget key) () payload) : key.type ≠ .endGroup := by
  obtain ⟨number, type⟩ := key
  rintro rfl
  cases budget with
  | zero => cases h []
  | succ budget => cases h []

/-- What is skipped once is skipped with other bytes behind it, groups and all. -/
theorem stable_skip (budget : Nat) (key : Key) : Stable (skip budget key) := by
  induction budget generalizing key with
  | zero => exact stable_fail _
  | succ budget ih =>
    obtain ⟨number, type⟩ := key
    cases type with
    | varint => exact Varint.stable_read.bind fun _ => stable_pure ()
    | sixtyFourBit => exact (stable_take 8).bind fun _ => stable_pure ()
    | lengthDelimited =>
      exact Varint.stable_read.bind fun length => (stable_take length).bind fun _ => stable_pure ()
    | startGroup =>
      have hskip (key : Key) :
          TakesOnly (skip budget key) fun _ payload => Reads (skip budget key) () payload := ih key
      refine (takesOnly_skipGroup hskip number).mono fun _ bytes hbytes => ?_
      exact reads_skipGroup id type_ne_endGroup_of_reads_skip hbytes
    | endGroup => exact stable_fail _
    | thirtyTwoBit => exact (stable_take 4).bind fun _ => stable_pure ()

/-- A field that is skipped leaves the record as it is. -/
theorem stable_skip_pure {σ : Type} (budget : Nat) (key : Key) (record : σ) :
    Stable (do skip budget key; pure record) :=
  (stable_skip budget key).bind fun _ => stable_pure record

section

variable {σ : Type} {step : Step σ} {start record : σ}

/-- Reading into a record begins with these bytes, whatever follows, and gets to another one. -/
def LeadsTo (step : Step σ) (start record : σ) (bytes : List UInt8) : Prop :=
  ∀ stop rest, stop ≤ rest.length →
    runFields step stop start (.ofBytes (bytes ++ rest)) =
      runFields step stop record (.ofBytes rest)

theorem leadsTo_nil : LeadsTo step start start [] := fun _ _ _ => rfl

/-- Steps that are stable lead on from record to record. -/
theorem keeps_leadsTo (hstep : ∀ record key, Stable (step record key)) :
    Keeps step (LeadsTo step start) := by
  intro record before key head hbefore hkey
  refine (hstep record key).mono fun record' payload hpayload => ?_
  intro stop rest hstop
  have hread := hkey.reads (payload ++ rest)
  have hlt := Key.read_size_lt hread
  simp only [Input.ofBytes, List.length_append] at hlt
  have hlong : stop ≤ (head ++ (payload ++ rest)).length := by
    simp only [List.length_append]
    omega
  have hstay : ¬(Input.ofBytes (head ++ (payload ++ rest))).size ≤ stop := by
    simp only [Input.ofBytes, List.length_append]
    omega
  rw [List.append_assoc, List.append_assoc, hbefore stop _ hlong, runFields_of_key hstay hread,
    hpayload rest]

theorem stable_readEmbedded {step : Nat → Step σ} {budget : Nat} {start : σ}
    (hstep : ∀ {inner}, budget = inner + 1 → ∀ record key, Stable (step inner record key))
    (key : Key) : Stable (readEmbedded (deeper step budget) start key) := by
  cases budget with
  | zero => exact (stable_check _ _).bind fun _ => stable_fail _
  | succ inner =>
    have hleads : ∀ other, inner + 1 = other + 1 →
        Keeps (step other) (LeadsTo (step inner) start) ∧ LeadsTo (step inner) start start [] := by
      intro other hother
      obtain rfl : inner = other := Nat.succ.inj hother
      exact ⟨keeps_leadsTo (hstep rfl), leadsTo_nil⟩
    refine (takesOnly_readEmbedded key hleads).mono fun record payload hpayload => ?_
    obtain ⟨number, type⟩ := key
    obtain ⟨rfl, length, bytes, hlength, hrecord, rfl⟩ := hpayload
    intro rest
    have hfields : runFields (step inner) rest.length start (.ofBytes (bytes ++ rest)) =
        .ok (record, .ofBytes rest) :=
      (hrecord _ rest (Nat.le_refl _)).trans (runFields_of_stop (Nat.le_refl _))
    rw [deeper, run_readEmbedded hlength, hfields]
    exact if_pos rfl

/-- A record that bytes are decoded to is what reading more bytes goes on from. -/
theorem decodeRecord_append (hstep : ∀ record key, Stable (step record key)) {bytes : List UInt8}
    (h : decodeRecord step start bytes = .ok record) (more : List UInt8) :
    decodeRecord step start (bytes ++ more) = decodeRecord step record more := by
  have hleads := (keeps_leadsTo hstep).decodeRecord leadsTo_nil h
  exact congrArg (Except.map Prod.fst) (hleads 0 more (Nat.zero_le _))

end

section

variable {σ : Type} {step : Step σ} {f : σ → σ}

/-- A change of the record that no field looks at goes through the reading of a field. -/
def Commutes (step : Step σ) (f : σ → σ) : Prop :=
  ∀ record key i, (step (f record) key).run i = ((step record key).run i).map (Prod.map f id)

theorem run_bind_pure_map {α : Type} {x : Reader α} {store store' : α → σ}
    (hstore : ∀ a, store' a = f (store a)) (i : Input) :
    (x >>= fun a => pure (store' a)).run i =
      ((x >>= fun a => pure (store a)).run i).map (Prod.map f id) := by
  rw [run_bind, run_bind]
  cases x.run i with
  | error e => rfl
  | ok ar =>
    simp only [hstore]
    rfl

theorem runFields_of_no_key {stop : Nat} {record : σ} {i : Input} {e : DecodeError}
    (hstop : ¬i.size ≤ stop) (hkey : Key.read.run i = .error e) :
    runFields step stop record i = .error e := by
  rw [runFields, if_neg hstop]
  split
  next e' he => rw [Except.error.inj (he.symm.trans hkey)]
  next key m hm =>
    rw [hkey] at hm
    cases hm

theorem Commutes.runFields (h : Commutes step f) (stop : Nat) (record : σ) (i : Input) :
    runFields step stop (f record) i = (runFields step stop record i).map (Prod.map f id) := by
  fun_induction Wire.runFields step stop record i with
  | case1 record i hstop =>
    rw [runFields_of_stop hstop]
    rfl
  | case2 record i hstop e hkey =>
    rw [runFields_of_no_key hstop hkey]
    rfl
  | case3 record i hstop key m hkey e hstep =>
    rw [runFields_of_key hstop hkey, h, hstep]
    rfl
  | case4 record i hstop key m hkey record' m' hstep ih =>
    rw [runFields_of_key hstop hkey, h, hstep]
    exact ih

theorem Commutes.decodeRecord (h : Commutes step f) (record : σ) (bytes : List UInt8) :
    decodeRecord step (f record) bytes = (decodeRecord step record bytes).map f := by
  have hrun := h.runFields 0 record (.ofBytes bytes)
  change (Wire.runFields step 0 (f record) (.ofBytes bytes)).map Prod.fst =
    ((Wire.runFields step 0 record (.ofBytes bytes)).map Prod.fst).map f
  rw [hrun]
  cases Wire.runFields step 0 record (.ofBytes bytes) <;> rfl

end

end TopicPlugin.Wire
