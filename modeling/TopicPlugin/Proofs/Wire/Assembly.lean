import TopicPlugin.Proofs.Wire.Content

/-!
# Reading records from their serializations

A reader of fields goes through a serialization one field after the other. What it has assembled
depends only on how many values of each number it has taken, not on how the numbers were mixed, so
every serialization of a content gives the same record. The only fault that can come up is a record
below the last level that the budget allows, and then it does come up.

`Assembles.takes_cons` says what the step does at one field, and `Assembles.runs` what a run does
over a whole serialization.
-/

namespace TopicPlugin.Wire

namespace Reader

variable {α σ : Type}

/-- The reader fails on these bytes, whatever follows them. -/
def Fails (x : Reader α) (cause : Cause) (bytes : List UInt8) : Prop :=
  ∀ rest, ∃ places, x.run (.ofBytes (bytes ++ rest)) = .error ⟨cause, places⟩

/-- The reader takes exactly these bytes if they fit, and runs out of levels if they do not. -/
structure Takes (fits : Prop) (x : Reader α) (a : α) (bytes : List UInt8) : Prop where
  reads : fits → Reads x a bytes
  fails : ¬fits → Fails x .recursionLimit bytes

theorem Fails.bind {x : Reader α} {cause : Cause} {bytes : List UInt8}
    (h : Fails x cause bytes) (f : α → Reader σ) : Fails (x >>= f) cause bytes := by
  intro rest
  obtain ⟨places, hrun⟩ := h rest
  exact ⟨places, by rw [run_bind, hrun]⟩

theorem Fails.within {x : Reader α} {cause : Cause} {bytes : List UInt8}
    (h : Fails x cause bytes) (place : Place) : Fails (x.within place) cause bytes := by
  intro rest
  obtain ⟨places, hrun⟩ := h rest
  refine ⟨places ++ [place], ?_⟩
  rw [Reader.within]
  simp only [hrun]
  rfl

theorem Takes.of_reads {fits : Prop} {x : Reader α} {a : α} {bytes : List UInt8} (hfits : fits)
    (h : Reads x a bytes) : Takes fits x a bytes :=
  ⟨fun _ => h, fun hnot => absurd hfits hnot⟩

/-- What is read under a place may be stored in a record. -/
theorem Takes.store {fits : Prop} {x : Reader α} {a : α} {bytes : List UInt8}
    (h : Takes fits x a bytes) (place : Place) {store : α → σ} {record : σ}
    (hstore : store a = record) :
    Takes fits (x.within place >>= fun a => pure (store a)) record bytes where
  reads hfits := by
    rw [← hstore]
    exact ((h.reads hfits).within place).bind_last (reads_pure _)
  fails hnot := ((h.fails hnot).within place).bind _

end Reader

section

variable {σ : Type} {step : Step σ} {stop : Nat} {record record' result : σ}

theorem runFields_of_stop {i : Input} (h : i.size ≤ stop) :
    runFields step stop record i = .ok (record, i) := by
  rw [runFields, if_pos h]

theorem runFields_of_key {key : Key} {i m : Input} (hstop : ¬i.size ≤ stop)
    (hkey : Key.read.run i = .ok (key, m)) :
    runFields step stop record i = match (step record key).run m with
      | .error e => .error e
      | .ok (record', r) => runFields step stop record' r := by
  rw [runFields, if_neg hstop]
  split
  next e he =>
    rw [hkey] at he
    cases he
  next key' m' hm =>
    rw [hkey] at hm
    obtain ⟨rfl, rfl⟩ := Prod.mk.inj (Except.ok.inj hm)
    split
    next e he => rw [he]
    next record' r hr => rw [hr]

/-- A record that begins with a field is what the other fields make of what that one left. -/
theorem exists_first_of_decodeRecord {key : Key} {head bytes : List UInt8}
    (hkey : Key.Form key head) (h : decodeRecord step record (head ++ bytes) = .ok result) :
    ∃ record' m r, (step record key).run (.ofBytes bytes) = .ok (record', m) ∧
      runFields step 0 record' m = .ok (result, r) := by
  have hread := hkey.reads bytes
  have hlt := Key.read_size_lt hread
  change (runFields step 0 record (.ofBytes (head ++ bytes))).map (·.1) = .ok result at h
  rw [runFields_of_key (by omega) hread] at h
  cases hstep : (step record key).run (.ofBytes bytes) with
  | error e =>
    rw [hstep] at h
    cases h
  | ok next =>
    obtain ⟨record', m⟩ := next
    rw [hstep] at h
    cases hrun : runFields step 0 record' m with
    | error e =>
      simp only [hrun] at h
      cases h
    | ok last =>
      simp only [hrun] at h
      cases h
      exact ⟨record', m, last.2, rfl, hrun⟩

/-- A run over these bytes ends in the result if they fit, and runs out of levels if they do not. -/
structure Runs (fits : Prop) (step : Step σ) (record result : σ) (bytes : List UInt8) : Prop where
  ok : fits → ∀ rest,
    runFields step rest.length record (.ofBytes (bytes ++ rest)) = .ok (result, .ofBytes rest)
  error : ¬fits → ∀ rest, ∃ places,
    runFields step rest.length record (.ofBytes (bytes ++ rest)) = .error ⟨.recursionLimit, places⟩

theorem Runs.nil {fits : Prop} (hfits : fits) : Runs fits step record record [] where
  ok _ _ := runFields_of_stop (Nat.le_refl _)
  error hnot := absurd hfits hnot

theorem Runs.cons {first others : Prop} {f : Occurrence} {bytes : List UInt8}
    (hkey : Key.Form f.key f.head)
    (hstep : Reader.Takes first (step record f.key) record' f.payload)
    (hrun : Runs others step record' result bytes) :
    Runs (first ∧ others) step record result (f.bytes ++ bytes) := by
  have hbytes : ∀ rest, f.bytes ++ bytes ++ rest = f.head ++ (f.payload ++ (bytes ++ rest)) := by
    simp [Occurrence.bytes]
  have hread : ∀ rest, Key.read.run (.ofBytes (f.bytes ++ bytes ++ rest)) =
      .ok (f.key, .ofBytes (f.payload ++ (bytes ++ rest))) := fun rest => by
    rw [hbytes]
    exact hkey.reads _
  have hstop : ∀ rest, ¬(Input.ofBytes (f.bytes ++ bytes ++ rest)).size ≤ rest.length := by
    intro rest
    have hlt := Key.read_size_lt (hread rest)
    simp only [Input.ofBytes, List.length_append] at hlt ⊢
    omega
  constructor
  · rintro ⟨hfirst, hothers⟩ rest
    rw [runFields_of_key (hstop rest) (hread rest), hstep.reads hfirst]
    exact hrun.ok hothers rest
  · intro hnot rest
    by_cases hfirst : first
    · rw [runFields_of_key (hstop rest) (hread rest), hstep.reads hfirst]
      exact hrun.error (fun hothers => hnot ⟨hfirst, hothers⟩) rest
    · obtain ⟨places, hplaces⟩ := hstep.fails hfirst (bytes ++ rest)
      exact ⟨places, by rw [runFields_of_key (hstop rest) (hread rest), hplaces]⟩

theorem Runs.decodeRecord_eq_ok {fits : Prop} {bytes : List UInt8}
    (h : Runs fits step record result bytes) (hfits : fits) :
    decodeRecord step record bytes = .ok result := by
  have hrun := h.ok hfits []
  rw [List.append_nil] at hrun
  exact congrArg (Except.map Prod.fst) hrun

theorem Runs.decodeRecord_eq_error {fits : Prop} {bytes : List UInt8}
    (h : Runs fits step record result bytes) (hnot : ¬fits) :
    ∃ places, decodeRecord step record bytes = .error ⟨.recursionLimit, places⟩ := by
  obtain ⟨places, hrun⟩ := h.error hnot []
  rw [List.append_nil] at hrun
  exact ⟨places, congrArg (Except.map Prod.fst) hrun⟩

end

def Value.Fits (level : Nat) (v : Value) : Prop := ∀ l ∈ v.levels level, l ≤ recursionBudget

def Slot.Fits (level : Nat) (s : Slot) : Prop := ∀ v ∈ s.values, v.Fits level

/-- No record in a record at some level lies below the last level. -/
def Content.Fits (level : Nat) (c : Content) : Prop := ∀ l ∈ c.levels level, l ≤ recursionBudget

theorem Content.fits_iff {level : Nat} {c : Content} :
    c.Fits level ↔ ∀ s ∈ c.slots, s.Fits level := by
  constructor
  · intro h s hs v hv l hl
    exact h l (List.mem_flatMap.mpr ⟨s, hs, List.mem_flatMap.mpr ⟨v, hv, hl⟩⟩)
  · intro h l hl
    obtain ⟨s, hs, hls⟩ := List.mem_flatMap.mp hl
    obtain ⟨v, hv, hlv⟩ := List.mem_flatMap.mp hls
    exact h s hs v hv l hlv

/-- One more value of a number is taken. -/
def taken (count : Nat → Nat) (number : Nat) : Nat → Nat :=
  Function.update count number (count number + 1)

@[simp] theorem taken_self (count : Nat → Nat) (number : Nat) :
    taken count number number = count number + 1 :=
  Function.update_self ..

@[simp] theorem taken_of_ne {number other : Nat} (h : other ≠ number) (count : Nat → Nat) :
    taken count number other = count other :=
  Function.update_of_ne h ..

namespace Slot

/-- The slot without the values that are taken, by their count for each number. -/
def after (count : Nat → Nat) (s : Slot) : Slot :=
  { s with values := s.values.drop (count s.number) }

theorem after_taken_of_ne {s : Slot} {number : Nat} (h : s.number ≠ number) (count : Nat → Nat) :
    s.after (taken count number) = s.after count := by
  rw [after, taken_of_ne h, after]

theorem after_taken_self (s : Slot) (count : Nat → Nat) :
    (s.after (taken count s.number)).values = (s.after count).values.tail := by
  simp only [after, taken_self, List.tail_drop]

/-- What is left fits if the value that comes next and what is left after it do. -/
theorem fits_after_iff {level : Nat} {slots : List Slot} {count : Nat → Nat}
    (hnodup : (slots.map (·.number)).Nodup) {s : Slot} (hs : s ∈ slots) {v : Value}
    (hvalues : (s.after count).values = v :: (s.after (taken count s.number)).values) :
    (∀ t ∈ slots, (t.after count).Fits level) ↔
      v.Fits level ∧ ∀ t ∈ slots, (t.after (taken count s.number)).Fits level := by
  have hself : (s.after count).Fits level ↔
      v.Fits level ∧ (s.after (taken count s.number)).Fits level := by
    rw [Slot.Fits, hvalues, List.forall_mem_cons]
    rfl
  constructor
  · intro hall
    obtain ⟨hv, hrest⟩ := hself.mp (hall s hs)
    refine ⟨hv, fun t ht => ?_⟩
    by_cases hts : t.number = s.number
    · rwa [List.inj_on_of_nodup_map hnodup ht hs hts]
    · rw [Slot.after_taken_of_ne hts]
      exact hall t ht
  · rintro ⟨hv, hall⟩ t ht
    by_cases hts : t.number = s.number
    · rw [List.inj_on_of_nodup_map hnodup ht hs hts]
      exact hself.mpr ⟨hv, hall s hs⟩
    · rw [← Slot.after_taken_of_ne hts]
      exact hall t ht

end Slot

namespace Arranged

variable {level : Nat} {slots : List Slot} {count : Nat → Nat} {f : Occurrence}
  {fields : List Occurrence}

theorem tail_of_unknown (h : Arranged level slots (f :: fields))
    (hf : ∀ s ∈ slots, s.number ≠ f.key.number) : Arranged level slots fields where
  keys g hg := h.keys g (List.mem_cons_of_mem _ hg)
  known s hs := by
    have hcarries := h.known s hs
    rwa [Occurrence.numbered_cons_of_ne (hf s hs).symm] at hcarries
  unknown g hg := h.unknown g (List.mem_cons_of_mem _ hg)

theorem exists_value (h : Arranged level (slots.map (Slot.after count)) (f :: fields)) {s : Slot}
    (hs : s ∈ slots) (hf : f.key.number = s.number) :
    ∃ v, (s.after count).values = v :: (s.after (taken count s.number)).values ∧ f.key = s.key ∧
      v.Form level f.payload ∧
      (s.after (taken count s.number)).Carries level (Occurrence.numbered fields s.number) := by
  have hcarries := h.known (s.after count) (List.mem_map_of_mem hs)
  have hnumbered : Occurrence.numbered (f :: fields) (s.after count).number =
      f :: Occurrence.numbered fields s.number := Occurrence.numbered_cons_of_eq hf fields
  rw [hnumbered, Slot.Carries, List.forall₂_cons_right_iff] at hcarries
  obtain ⟨v, values, ⟨hkey, hform⟩, hrest, hvalues⟩ := hcarries
  have htail : (s.after (taken count s.number)).values = values := by
    rw [Slot.after_taken_self, hvalues, List.tail_cons]
  refine ⟨v, by rw [htail, hvalues], hkey, hform, ?_⟩
  rw [Slot.Carries, htail]
  exact hrest

theorem tail_of_known (h : Arranged level (slots.map (Slot.after count)) (f :: fields))
    (hnodup : (slots.map (·.number)).Nodup) {s : Slot} (hs : s ∈ slots)
    (hf : f.key.number = s.number) :
    Arranged level (slots.map (Slot.after (taken count s.number))) fields where
  keys g hg := h.keys g (List.mem_cons_of_mem _ hg)
  known := by
    rw [List.forall_mem_map]
    intro t ht
    by_cases hts : t.number = s.number
    -- Numbers are distinct, so only the slot of this field has lost a value.
    · obtain rfl : t = s := List.inj_on_of_nodup_map hnodup ht hs hts
      obtain ⟨v, -, -, -, hcarries⟩ := h.exists_value ht hf
      exact hcarries
    · have hcarries := h.known (t.after count) (List.mem_map_of_mem ht)
      rw [Slot.after_taken_of_ne hts]
      have hne : f.key.number ≠ (t.after count).number := fun hnumber => hts (hnumber.symm.trans hf)
      rwa [Occurrence.numbered_cons_of_ne hne] at hcarries
  unknown g hg hne := by
    refine h.unknown g (List.mem_cons_of_mem _ hg) ?_
    rw [List.forall_mem_map] at hne ⊢
    exact hne

end Arranged

/-- A step that assembles a record from the fields of a content. `assembled count` is the record
that holds the first `count n` values of each number `n`; the order in which the numbers came plays
no part in it. -/
structure Assembles {σ : Type} (step : Step σ) (level : Nat) (c : Content) (start result : σ)
    (assembled : (Nat → Nat) → σ) : Prop where
  start : assembled (fun _ => 0) = start
  result : ∀ count, (∀ s ∈ c.slots, s.values.length ≤ count s.number) → assembled count = result
  known : ∀ s ∈ c.slots, ∀ count v payload, s.values[count s.number]? = some v →
    v.Form level payload →
    Reader.Takes (v.Fits level) (step (assembled count) s.key) (assembled (taken count s.number))
      payload
  unknown : ∀ record key payload, (∀ s ∈ c.slots, s.number ≠ key.number) →
    (∃ depth, level + depth < recursionBudget ∧ PayloadForm depth key payload) →
    Reader.Reads (step record key) record payload

namespace Assembles

variable {σ : Type} {step : Step σ} {level : Nat} {c : Content} {start result : σ}
  {assembled : (Nat → Nat) → σ}

/-- The step at one field, with what is left of the content after it. -/
theorem takes_cons (h : Assembles step level c start result assembled) {count : Nat → Nat}
    {f : Occurrence} {fields : List Occurrence}
    (harranged : Arranged level (c.slots.map (Slot.after count)) (f :: fields)) :
    ∃ (first : Prop) (count' : Nat → Nat),
      Reader.Takes first (step (assembled count) f.key) (assembled count') f.payload ∧
      Arranged level (c.slots.map (Slot.after count')) fields ∧
      ((∀ s ∈ c.slots, (s.after count).Fits level) ↔
        first ∧ ∀ s ∈ c.slots, (s.after count').Fits level) := by
  by_cases hknown : ∃ s ∈ c.slots, f.key.number = s.number
  · obtain ⟨s, hs, hf⟩ := hknown
    obtain ⟨v, hvalues, hkey, hform, -⟩ := harranged.exists_value hs hf
    have hv : s.values[count s.number]? = some v := by
      have hdrop : (s.values.drop (count s.number))[0]? = some v := congrArg (·[0]?) hvalues
      rwa [List.getElem?_drop, Nat.add_zero] at hdrop
    refine ⟨v.Fits level, taken count s.number, ?_, harranged.tail_of_known c.nodup hs hf,
      Slot.fits_after_iff c.nodup hs hvalues⟩
    rw [hkey]
    exact h.known s hs _ _ _ hv hform
  · have hne : ∀ s ∈ c.slots, s.number ≠ f.key.number := fun s hs hnumber =>
      hknown ⟨s, hs, hnumber.symm⟩
    have hafter : ∀ s ∈ c.slots.map (Slot.after count), s.number ≠ f.key.number :=
      List.forall_mem_map.mpr hne
    have hread := h.unknown (assembled count) _ _ hne
      (harranged.unknown f List.mem_cons_self hafter)
    exact ⟨True, count, .of_reads trivial hread, harranged.tail_of_unknown hafter,
      ⟨fun hall => ⟨trivial, hall⟩, And.right⟩⟩

theorem runs_after (h : Assembles step level c start result assembled) {count : Nat → Nat}
    {fields : List Occurrence}
    (harranged : Arranged level (c.slots.map (Slot.after count)) fields) :
    Runs (∀ s ∈ c.slots, (s.after count).Fits level) step (assembled count) result
      (fields.flatMap Occurrence.bytes) := by
  induction fields generalizing count with
  | nil =>
    have hnil : ∀ s ∈ c.slots, (s.after count).values = [] := fun s hs =>
      List.forall₂_nil_right_iff.mp (harranged.known (s.after count) (List.mem_map_of_mem hs))
    rw [h.result _ fun s hs => List.drop_eq_nil_iff.mp (hnil s hs)]
    refine Runs.nil fun s hs v hv => ?_
    rw [hnil s hs] at hv
    cases hv
  | cons f fields ih =>
    obtain ⟨first, count', htakes, hrest, hiff⟩ := h.takes_cons harranged
    rw [List.flatMap_cons, hiff]
    exact Runs.cons (harranged.keys f List.mem_cons_self) htakes (ih hrest)

/-- Every serialization of a content gives the same record, or runs out of levels if the content
does not fit. -/
theorem runs (h : Assembles step level c start result assembled) {bytes : List UInt8}
    (hform : c.Form level bytes) : Runs (c.Fits level) step start result bytes := by
  obtain ⟨fields, harranged, rfl⟩ := hform
  have hzero : c.slots.map (Slot.after fun _ => 0) = c.slots := List.map_id c.slots
  have hall : Arranged level (c.slots.map (Slot.after fun _ => 0)) fields := hzero.symm ▸ harranged
  have hruns := h.runs_after hall
  rwa [h.start, ← List.forall_mem_map, hzero, ← Content.fits_iff] at hruns

end Assembles

theorem takes_readText {level number : Nat} {t : String} {payload : List UInt8}
    (h : (Value.text t).Form level payload) :
    Reader.Takes ((Value.text t).Fits level) (readText ⟨number, .lengthDelimited⟩) t payload := by
  refine .of_reads (List.forall_mem_nil _) ?_
  obtain ⟨length, bytes, hlength, rfl, rfl⟩ := h
  refine Reader.Reads.bind_first (reads_expect rfl) ?_
  refine hlength.reads.bind ?_
  refine Reader.Reads.bind_last (Reader.reads_take _) ?_
  rw [textOfBytes?_bytesOfText]
  exact Reader.reads_pure t

theorem takes_readInt32 {level number : Nat} {value : Int32} {payload : List UInt8}
    (h : (Value.number value).Form level payload) :
    Reader.Takes ((Value.number value).Fits level) (readInt32 ⟨number, .varint⟩) value payload := by
  refine .of_reads (List.forall_mem_nil _) ?_
  refine Reader.Reads.bind_first (reads_expect rfl) ?_
  refine Reader.Reads.bind_last (Varint.Form.reads h) ?_
  rw [toInt32_ofNat_toUInt64]
  exact Reader.reads_pure value

theorem takes_readUInt64 {level number : Nat} {value : UInt64} {payload : List UInt8}
    (h : (Value.word value).Form level payload) :
    Reader.Takes ((Value.word value).Fits level) (readUInt64 ⟨number, .varint⟩) value payload := by
  refine .of_reads (List.forall_mem_nil _) ?_
  refine Reader.Reads.bind_first (reads_expect rfl) ?_
  refine Reader.Reads.bind_last (Varint.Form.reads h) ?_
  rw [UInt64.ofNat_toNat]
  exact Reader.reads_pure value

theorem run_readEmbedded {σ : Type} {step : Step σ} {start : σ} {number : Nat}
    {length bytes : List UInt8} (hlength : Varint.Form bytes.length length) (rest : List UInt8) :
    (readEmbedded (some step) start ⟨number, .lengthDelimited⟩).run
        (.ofBytes (length ++ bytes ++ rest)) =
      match runFields step rest.length start (.ofBytes (bytes ++ rest)) with
      | .error e => .error e
      | .ok (record, r) =>
        if r.size = rest.length then .ok (record, r) else .error { cause := .lengthExceeded } := by
  have hstop : (Input.ofBytes (bytes ++ rest)).size - bytes.length = rest.length := by
    simp [Input.ofBytes]
  have hle : bytes.length ≤ (Input.ofBytes (bytes ++ rest)).size := by
    simp [Input.ofBytes]
  have hexpect : (Key.expect ⟨number, .lengthDelimited⟩ .lengthDelimited).run
      (.ofBytes (length ++ (bytes ++ rest))) = .ok ((), .ofBytes (length ++ (bytes ++ rest))) :=
    reads_expect rfl _
  rw [readEmbedded, Reader.run_bind, List.append_assoc, hexpect]
  simp only [Reader.run_bind, hlength.reads (bytes ++ rest), Reader.remaining, hstop, Reader.check,
    hle, if_true, Reader.run_pure, readFields]
  cases runFields step rest.length start (.ofBytes (bytes ++ rest)) with
  | error e => rfl
  | ok result =>
    obtain ⟨record, r⟩ := result
    by_cases hr : r.size = rest.length
    · simp [hr]
    · simp [hr]

/-- An embedded record is taken if there is a level left for it and its fields are. -/
theorem takes_readEmbedded {σ : Type} {step : Nat → Step σ} {start result : σ} {c : Content}
    {level budget : Nat} {payload : List UInt8} (number : Nat)
    (hbudget : level + budget = recursionBudget)
    (hinner : ∀ {inner bytes}, level + 1 + inner = recursionBudget → c.Form (level + 1) bytes →
      Runs (c.Fits (level + 1)) (step inner) start result bytes)
    (h : (Value.record c).Form level payload) :
    Reader.Takes ((Value.record c).Fits level)
      (readEmbedded (deeper step budget) start ⟨number, .lengthDelimited⟩) result payload := by
  have hfits : (Value.record c).Fits level ↔
      level + 1 ≤ recursionBudget ∧ c.Fits (level + 1) := List.forall_mem_cons
  rw [hfits]
  obtain ⟨length, bytes, hlength, hbytes, rfl⟩ := h
  cases budget with
  -- With no budget left the record is refused before its length is read.
  | zero => exact ⟨fun hlevel => by omega, fun _ rest => ⟨[], rfl⟩⟩
  | succ inner =>
    have hruns : Runs (c.Fits (level + 1)) (step inner) start result bytes :=
      hinner (by omega) hbytes
    constructor
    · intro hall rest
      rw [deeper, run_readEmbedded hlength, hruns.ok hall.2]
      exact if_pos rfl
    · intro hnot rest
      obtain ⟨places, hplaces⟩ := hruns.error (fun hfit => hnot ⟨by omega, hfit⟩) rest
      exact ⟨places, by rw [deeper, run_readEmbedded hlength, hplaces]⟩

theorem reads_skip_pure {σ : Type} {level budget : Nat} {record : σ} {key : Key}
    {payload : List UInt8} (hbudget : level + budget = recursionBudget)
    (h : ∃ depth, level + depth < recursionBudget ∧ PayloadForm depth key payload) :
    Reader.Reads (do skip budget key; pure record) record payload := by
  obtain ⟨depth, hdepth, hpayload⟩ := h
  exact (hpayload.reads (by omega)).bind_last (Reader.reads_pure record)

end TopicPlugin.Wire
