import TopicPlugin.Wire.Skip

/-!
# Records on the wire

A record is a sequence of fields, in any order and with repetitions. It is read by a step that takes
one field into what has been read before, over and over until a given number of bytes is left.

An embedded record gives its length. Its own fields are not held to that length while they are read,
only to the end of all the bytes; a field that runs past the end of its record is a fault of the
record, found when its fields are over.
-/

namespace TopicPlugin.Wire

/-- Takes the field with a key into a record. -/
abbrev Step (σ : Type) := σ → Key → Reader σ

/-- The record and what is left once no more than `stop` bytes are. -/
def runFields {σ : Type} (step : Step σ) (stop : Nat) (record : σ) (i : Input) :
    Except DecodeError (σ × Input) :=
  if i.size ≤ stop then .ok (record, i)
  else
    match _hk : Key.read.run i with
    | .error e => .error e
    | .ok (key, m) =>
      match _hs : (step record key).run m with
      | .error e => .error e
      | .ok (record', m') => runFields step stop record' m'
termination_by i.size
decreasing_by
  exact Nat.lt_of_le_of_lt (Reader.size_le _ (by assumption)) (Key.read_size_lt (by assumption))

theorem runFields_size_le {σ : Type} {step : Step σ} {stop : Nat} {record result : σ} {i r : Input}
    (h : runFields step stop record i = .ok (result, r)) : r.size ≤ i.size := by
  fun_induction runFields step stop record i with
  | case1 => cases h; exact Nat.le_refl _
  | case2 => cases h
  | case3 => cases h
  | case4 record i _ key m hk record' m' hs ih =>
    exact Nat.le_trans (ih h) (Nat.le_trans (Reader.size_le _ hs)
      (Nat.le_of_lt (Key.read_size_lt hk)))

/-- Reads fields into a record until no more than `stop` bytes are left. -/
def readFields {σ : Type} (step : Step σ) (stop : Nat) (record : σ) : Reader σ where
  run := runFields step stop record
  size_le := runFields_size_le

/-- How deep records may lie inside the outermost one. -/
def recursionBudget : Nat := 100

/-- The step for records one level deeper, if the budget has a level left. -/
def deeper {σ : Type} (step : Nat → Step σ) : Nat → Option (Step σ)
  | 0 => none
  | budget + 1 => some (step budget)

/-- Reads an embedded record into one that holds what has been read of it before. -/
def readEmbedded {σ : Type} (step : Option (Step σ)) (record : σ) (key : Key) : Reader σ := do
  key.expect .lengthDelimited
  match step with
  | none => Reader.fail .recursionLimit
  | some step => do
    let length ← Varint.read
    let available ← Reader.remaining
    Reader.check (length ≤ available) .underflow
    let record ← readFields step (available - length) record
    let left ← Reader.remaining
    Reader.check (left = available - length) .lengthExceeded
    pure record

/-- Reads all bytes as the fields of one record. -/
def decodeRecord {σ : Type} (step : Step σ) (start : σ) (bytes : List UInt8) :
    Except DecodeError σ :=
  ((readFields step 0 start).run (.ofBytes bytes)).map (·.1)

/-- A record as a field of another one. -/
def encodeEmbedded (number : Nat) (content : List UInt8) : List UInt8 :=
  Key.encode ⟨number, .lengthDelimited⟩ ++ Varint.encode content.length ++ content

end TopicPlugin.Wire
