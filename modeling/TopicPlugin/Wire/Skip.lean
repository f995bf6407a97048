import TopicPlugin.Wire.Key

/-!
# Skipping unknown fields

The payload of a field whose number is not known is passed over by its wire type alone. A group is
passed over up to the end with its own number, and the groups inside it one level deeper; the budget
says how many levels are left.
-/

namespace TopicPlugin.Wire

/-- What is left after the fields of a group and the end that carries its number. -/
def runGroup (skipField : Key → Reader Unit) (number : Nat) (i : Input) :
    Except DecodeError (Unit × Input) :=
  match _hk : Key.read.run i with
  | .error e => .error e
  | .ok (key, m) =>
    if key.type = .endGroup then
      if key.number = number then .ok ((), m) else .error { cause := .unexpectedEndGroup }
    else
      match _hs : (skipField key).run m with
      | .error e => .error e
      | .ok ((), m') => runGroup skipField number m'
termination_by i.size
decreasing_by
  exact Nat.lt_of_le_of_lt (Reader.size_le _ (by assumption)) (Key.read_size_lt (by assumption))

theorem runGroup_size_le {skipField : Key → Reader Unit} {number : Nat} {i r : Input} {a : Unit}
    (h : runGroup skipField number i = .ok (a, r)) : r.size ≤ i.size := by
  fun_induction runGroup skipField number i with
  | case1 => cases h
  | case2 i key m hk => cases h; exact Nat.le_of_lt (Key.read_size_lt hk)
  | case3 => cases h
  | case4 => cases h
  | case5 i key m hk _ m' hs ih =>
    exact Nat.le_trans (ih h) (Nat.le_trans (Reader.size_le _ hs)
      (Nat.le_of_lt (Key.read_size_lt hk)))

/-- Passes over the fields of a group, each by `skipField`, and over the end of the group. -/
def skipGroup (skipField : Key → Reader Unit) (number : Nat) : Reader Unit where
  run := runGroup skipField number
  size_le := runGroup_size_le

/-- Passes over the payload of a field; a budget of zero is spent already. -/
def skip : Nat → Key → Reader Unit
  | 0, _ => .fail .recursionLimit
  | budget + 1, key =>
    match key.type with
    | .varint => do
      let _ ← Varint.read
    | .sixtyFourBit => do
      let _ ← Reader.take 8
    | .lengthDelimited => do
      let length ← Varint.read
      let _ ← Reader.take length
    | .startGroup => skipGroup (skip budget) key.number
    | .endGroup => .fail .unexpectedEndGroup
    | .thirtyTwoBit => do
      let _ ← Reader.take 4

end TopicPlugin.Wire
