import TopicPlugin.Wire.Error

/-!
# Readers of bytes

A reader takes bytes from the front of what is left of a message. It either fails or gives a value
and what it has left, which is never more than it was given; the type carries the last fact, since it
is what lets a loop over the fields of a message end. The bytes left come with their number, so a
reader can ask how many there are without counting them.

`Reads x a bytes` says that the reader `x` takes exactly `bytes` and gives `a`, whatever follows. It
composes along the reader, and the lemmas that put a reader beside a writer have this form.
-/

namespace TopicPlugin.Wire

/-- Bytes that are not read yet. -/
structure Input where
  bytes : List UInt8
  size : Nat
  size_eq : size = bytes.length

namespace Input

def ofBytes (bytes : List UInt8) : Input := ⟨bytes, bytes.length, rfl⟩

@[ext] theorem ext {i j : Input} (h : i.bytes = j.bytes) : i = j := by
  cases i with | mk bytes size size_eq =>
  cases j with | mk bytes' size' size_eq' =>
  obtain rfl : bytes = bytes' := h
  subst size_eq size_eq'
  rfl

end Input

structure Reader (α : Type) where
  run : Input → Except DecodeError (α × Input)
  size_le : ∀ {i r : Input} {a : α}, run i = .ok (a, r) → r.size ≤ i.size

namespace Reader

variable {α β : Type}

protected def pure (a : α) : Reader α where
  run i := .ok (a, i)
  size_le h := by cases h; exact Nat.le_refl _

protected def bind (x : Reader α) (f : α → Reader β) : Reader β where
  run i := match x.run i with
    | .error e => .error e
    | .ok (a, r) => (f a).run r
  size_le := by
    intro i r b h
    cases hx : x.run i with
    | error e => simp [hx] at h
    | ok ar =>
      obtain ⟨a, m⟩ := ar
      simp only [hx] at h
      exact Nat.le_trans ((f a).size_le h) (x.size_le hx)

instance : Monad Reader where
  pure := Reader.pure
  bind := Reader.bind

def fail (cause : Cause) : Reader α where
  run _ := .error { cause }
  size_le h := by cases h

/-- Goes on only if a condition holds. -/
def check (condition : Prop) [Decidable condition] (cause : Cause) : Reader Unit :=
  if condition then pure () else fail cause

/-- The number of bytes left. -/
def remaining : Reader Nat where
  run i := .ok (i.size, i)
  size_le h := by cases h; exact Nat.le_refl _

/-- The next byte; `cause` is the fault if there is none. -/
def byte (cause : Cause) : Reader UInt8 where
  run i := match i with
    | ⟨[], _, _⟩ => .error { cause }
    | ⟨b :: bytes, size, h⟩ => .ok (b, ⟨bytes, size - 1, by simp [h]⟩)
  size_le := by
    rintro ⟨_ | ⟨b, bytes⟩, size, h⟩ r a hr
    · cases hr
    · cases hr; exact Nat.sub_le _ _

/-- The next `count` bytes. -/
def take (count : Nat) : Reader (List UInt8) where
  run i :=
    if count ≤ i.size then
      .ok (i.bytes.take count, ⟨i.bytes.drop count, i.size - count, by simp [i.size_eq]⟩)
    else .error { cause := .underflow }
  size_le := by
    intro i r a h
    split at h
    · cases h; exact Nat.sub_le _ _
    · cases h

/-- Puts a field around the errors of a reader. -/
def within (place : Place) (x : Reader α) : Reader α where
  run i := match x.run i with
    | .error e => .error (e.within place)
    | .ok ar => .ok ar
  size_le := by
    intro i r a h
    cases hx : x.run i with
    | error e => simp [hx] at h
    | ok ar => simp only [hx, Except.ok.injEq] at h; exact x.size_le (h ▸ hx)

@[simp] theorem run_pure (a : α) (i : Input) : (pure a : Reader α).run i = .ok (a, i) := rfl

@[simp] theorem run_bind (x : Reader α) (f : α → Reader β) (i : Input) :
    (x >>= f).run i = match x.run i with
      | .error e => .error e
      | .ok (a, r) => (f a).run r := rfl

@[simp] theorem run_fail (cause : Cause) (i : Input) :
    (fail cause : Reader α).run i = .error { cause } := rfl

theorem byte_size_lt {cause : Cause} {i r : Input} {b : UInt8}
    (h : (byte cause).run i = .ok (b, r)) : r.size < i.size := by
  obtain ⟨_ | ⟨c, bytes⟩, size, hsize⟩ := i
  · cases h
  · cases h
    simp only [List.length_cons] at hsize
    simp only
    omega

/-- The reader takes exactly these bytes, whatever follows them, and gives the value. -/
def Reads (x : Reader α) (a : α) (bytes : List UInt8) : Prop :=
  ∀ rest, x.run (.ofBytes (bytes ++ rest)) = .ok (a, .ofBytes rest)

theorem reads_pure (a : α) : Reads (pure a) a [] := fun _ => rfl

theorem Reads.bind {x : Reader α} {f : α → Reader β} {a : α} {b : β} {first second : List UInt8}
    (hx : Reads x a first) (hf : Reads (f a) b second) : Reads (x >>= f) b (first ++ second) := by
  intro rest
  rw [List.append_assoc, run_bind, hx]
  exact hf rest

/-- The first reader may take nothing. -/
theorem Reads.bind_first {x : Reader α} {f : α → Reader β} {a : α} {b : β} {bytes : List UInt8}
    (hx : Reads x a []) (hf : Reads (f a) b bytes) : Reads (x >>= f) b bytes :=
  hx.bind hf

/-- The second reader may take nothing. -/
theorem Reads.bind_last {x : Reader α} {f : α → Reader β} {a : α} {b : β} {bytes : List UInt8}
    (hx : Reads x a bytes) (hf : Reads (f a) b []) : Reads (x >>= f) b bytes := by
  rw [← List.append_nil bytes]
  exact hx.bind hf

theorem reads_check {condition : Prop} [Decidable condition] (cause : Cause) (h : condition) :
    Reads (check condition cause) () [] := by
  rw [check, if_pos h]
  exact reads_pure ()

theorem reads_byte (cause : Cause) (b : UInt8) : Reads (byte cause) b [b] := fun _ => rfl

theorem reads_take (bytes : List UInt8) : Reads (take bytes.length) bytes bytes := by
  intro rest
  have hle : bytes.length ≤ (Input.ofBytes (bytes ++ rest)).size := by
    simp [Input.ofBytes]
  have htake : (Input.ofBytes (bytes ++ rest)).bytes.take bytes.length = bytes := by
    simp [Input.ofBytes]
  rw [take]
  simp only [hle, if_true, htake]
  congr 2
  exact Input.ext (by simp [Input.ofBytes])

theorem Reads.within {x : Reader α} {a : α} {bytes : List UInt8} (h : Reads x a bytes)
    (place : Place) : Reads (x.within place) a bytes := by
  intro rest
  rw [Reader.within]
  simp only [h rest]

end Reader

end TopicPlugin.Wire
