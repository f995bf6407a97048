/-!
# Byte streams that hand over a little at a time

A source gives its bytes in chunks and may fail where it should end. A sink takes bytes in chunks, may
refuse to go beyond a number of bytes, and may fail when it is flushed. Reading to the end and writing
everything are loops over such partial calls.
-/

namespace TopicPlugin

structure Source where
  pending : List UInt8
  /-- The most bytes that one call hands over. -/
  chunk : Nat
  chunk_pos : 0 < chunk
  /-- How the source fails after its last byte, if it does not simply end. -/
  failure : Option String := none

namespace Source

/-- The next chunk; an empty one is the end. -/
def read (s : Source) : Except String (List UInt8 × Source) :=
  match s.pending, s.failure with
  | [], some text => .error text
  | _, _ => .ok (s.pending.take s.chunk, { s with pending := s.pending.drop s.chunk })

theorem read_length_lt {s s' : Source} {b : UInt8} {bytes : List UInt8}
    (h : s.read = .ok (b :: bytes, s')) : s'.pending.length < s.pending.length := by
  unfold read at h
  split at h
  · cases h
  · simp only [Except.ok.injEq, Prod.mk.injEq] at h
    obtain ⟨htake, rfl⟩ := h
    have hlen := congrArg List.length htake
    have hpos := s.chunk_pos
    simp only [List.length_take, List.length_cons, List.length_drop] at hlen ⊢
    omega

/-- All bytes up to the end; bytes read before a failure are not given. -/
def readAll (s : Source) : Except String (List UInt8) :=
  match _h : s.read with
  | .error text => .error text
  | .ok ([], _) => .ok []
  | .ok (b :: bytes, s') => (readAll s').map ((b :: bytes) ++ ·)
termination_by s.pending.length
decreasing_by exact read_length_lt (by assumption)

end Source

structure Sink where
  written : List UInt8 := []
  /-- The most bytes that one call takes. -/
  chunk : Nat
  chunk_pos : 0 < chunk
  /-- The most bytes that the sink ever takes, and how it refuses more. -/
  limit : Option (Nat × String) := none
  flushFailure : Option String := none

namespace Sink

/-- Why the sink does not take so many bytes more, if it does not. -/
def refusal? (s : Sink) (count : Nat) : Option String :=
  match s.limit with
  | none => none
  | some (most, text) => if s.written.length + count ≤ most then none else some text

/-- Offers bytes; the answer is the number taken from the front, or why none is. -/
def write (s : Sink) (bytes : List UInt8) : Except String (Nat × Sink) :=
  match s.refusal? (bytes.take s.chunk).length with
  | some text => .error text
  | none =>
    .ok ((bytes.take s.chunk).length, { s with written := s.written ++ bytes.take s.chunk })

theorem write_pos {s s' : Sink} {b : UInt8} {bytes : List UInt8} {count : Nat}
    (h : s.write (b :: bytes) = .ok (count, s')) : 0 < count := by
  have hpos := s.chunk_pos
  unfold write at h
  split at h
  · cases h
  · cases h
    simp only [List.length_take, List.length_cons]
    omega

/-- Writes bytes until all are taken or the sink fails; what it took before stays in it. -/
def writeAll (s : Sink) : List UInt8 → Sink × Option String
  | [] => (s, none)
  | b :: bytes =>
    match _h : s.write (b :: bytes) with
    | .error text => (s, some text)
    | .ok (count, s') => writeAll s' ((b :: bytes).drop count)
termination_by bytes => bytes.length
decreasing_by
  have := write_pos (by assumption)
  simp only [List.length_drop, List.length_cons]
  omega

def flush (s : Sink) : Option String := s.flushFailure

end Sink

end TopicPlugin
