import Mathlib.Data.List.Induction
import TopicPlugin.Proofs.Descriptor.RoundTrip
import TopicPlugin.Proofs.Wire.PrefixStability

/-!
# Requests one behind the other

The bytes of a request with those of another one behind them are a request again. It has what both
have, in order: the targets and the files of the first and then those of the second, and of two
parameters the later. Whatever is wrong with the second part is reported as it would be without the
first; the first part has to be in order by itself.

Two facts carry this. No step looks beyond the field that it takes (`stable_step`), so the first
part is read as if nothing followed. And what the step for requests makes of a field is put behind
what was read before, so the second part may as well be read by itself (`commutes_step`).
-/

namespace TopicPlugin

open Wire Reader

theorem Pipe.stable_step (budget : Nat) (p : Pipe) (key : Wire.Key) :
    Stable (step budget p key) := by
  rw [step]
  split
  next => exact (stable_readText key).store _ _
  next => exact stable_skip_pure budget key p

theorem Options.stable_step (budget : Nat) (o : Options) (key : Wire.Key) :
    Stable (step budget o key) := by
  rw [step]
  split
  next => exact (stable_readEmbedded (fun _ => Pipe.stable_step _) key).store _ _
  next => exact stable_skip_pure budget key o

theorem FieldDescriptor.stable_step (budget : Nat) (d : FieldDescriptor) (key : Wire.Key) :
    Stable (step budget d key) := by
  rw [step]
  split
  next => exact (stable_readText key).store _ _
  next => exact (stable_readInt32 key).store _ _
  next => exact (stable_readInt32 key).store _ _
  next => exact (stable_readInt32 key).store _ _
  next => exact (stable_readText key).store _ _
  next => exact stable_skip_pure budget key d

theorem MessageDescriptor.stable_step (budget : Nat) (d : MessageDescriptor) (key : Wire.Key) :
    Stable (step budget d key) := by
  rw [step.eq_def]
  split
  next => exact (stable_readText key).store _ _
  next => exact (stable_readEmbedded (fun _ => FieldDescriptor.stable_step _) key).store _ _
  -- A nested message is read with a smaller budget, and the recursion is on the budget.
  next =>
    have hread : Stable (readEmbedded (deeper step budget) {} key) :=
      stable_readEmbedded (fun _ => stable_step _) key
    rw [deeper_step] at hread
    exact hread.store _ _
  next => exact (stable_readEmbedded (fun _ => Options.stable_step _) key).store _ _
  next => exact stable_skip_pure budget key d
termination_by budget

theorem FileDescriptor.stable_step (budget : Nat) (d : FileDescriptor) (key : Wire.Key) :
    Stable (step budget d key) := by
  rw [step]
  split
  next => exact (stable_readText key).store _ _
  next => exact (stable_readText key).store _ _
  next => exact (stable_readEmbedded (fun _ => MessageDescriptor.stable_step _) key).store _ _
  next => exact stable_skip_pure budget key d

theorem RequestDescriptor.stable_step (budget : Nat) (d : RequestDescriptor) (key : Wire.Key) :
    Stable (step budget d key) := by
  rw [step]
  split
  next => exact (stable_readText key).store _ _
  next => exact (stable_readText key).store _ _
  next => exact (stable_readEmbedded (fun _ => FileDescriptor.stable_step _) key).store _ _
  next => exact stable_skip_pure budget key d

namespace RequestDescriptor

/-- What two descriptors hold, the later parameter in place of the earlier one. -/
def merge (first second : RequestDescriptor) : RequestDescriptor where
  targets := first.targets ++ second.targets
  parameter := second.parameter.or first.parameter
  files := first.files ++ second.files

theorem merge_empty (d : RequestDescriptor) : d.merge {} = d := by
  simp [merge]

theorem commutes_step (budget : Nat) (first : RequestDescriptor) :
    Commutes (step budget) first.merge := by
  intro d key i
  rw [step, step]
  split
  next => exact run_bind_pure_map (fun target => by simp [merge]) i
  next => exact run_bind_pure_map (fun parameter => by simp [merge]) i
  next => exact run_bind_pure_map (fun file => by simp [merge]) i
  next => exact run_bind_pure_map (fun _ => by rfl) i

/-- A descriptor, and what is read behind it, are read as one. -/
theorem decode_followed {bytes : List UInt8} {first : RequestDescriptor}
    (h : decode bytes = .ok first) (more : List UInt8) :
    decode (bytes ++ more) = (decode more).map first.merge := by
  calc decode (bytes ++ more)
      = decodeRecord (step recursionBudget) first more :=
        decodeRecord_append (stable_step recursionBudget) h more
    _ = decodeRecord (step recursionBudget) (first.merge {}) more := by rw [merge_empty]
    _ = (decode more).map first.merge :=
        (commutes_step recursionBudget first).decodeRecord {} more

end RequestDescriptor

theorem eraseDups_filter {α : Type} [DecidableEq α] (p : α → Bool) (as : List α) :
    (as.filter p).eraseDups = as.eraseDups.filter p := by
  induction as using List.reverseRecOn with
  | nil => rfl
  | append_singleton as a ih =>
    rw [List.filter_append, List.eraseDups_append, List.eraseDups_append, List.filter_append, ih]
    congr 1
    by_cases ha : p a = true
    · by_cases hin : a ∈ as <;> simp [List.removeAll, List.eraseDups_cons, ha, hin]
    · by_cases hin : a ∈ as <;> simp [List.removeAll, List.eraseDups_cons, ha, hin]

namespace Request

/-- What two requests hold, a target of both only once, and the later parameter in place of the
earlier one. -/
def merge (first second : Request) : Request where
  targets := first.targets ++ second.targets.filter (· ∉ first.targets)
  parameter := second.parameter.or first.parameter
  files := first.files ++ second.files

theorem request_merge (first second : RequestDescriptor) :
    (first.merge second).request = first.request.merge second.request := by
  have htargets : (first.targets ++ second.targets).eraseDups = first.targets.eraseDups ++
      second.targets.eraseDups.filter (· ∉ first.targets.eraseDups) := by
    rw [List.eraseDups_append, List.removeAll, eraseDups_filter]
    congr 1
    refine List.filter_congr fun target _ => ?_
    simp [List.mem_eraseDups]
  simp only [RequestDescriptor.request, RequestDescriptor.merge, htargets, List.map_append]
  rfl

/-- A request with bytes behind it is decoded as what the bytes hold put behind the request: the
new targets and the files in order, and their parameter if they have one. What is wrong with the
bytes is reported as if they stood alone. -/
theorem decode_append {bytes : List UInt8} {first : Request} (h : decode bytes = .ok first)
    (more : List UInt8) :
    (∀ second, decode more = .ok second → decode (bytes ++ more) = .ok
      { targets := first.targets ++ second.targets.filter (· ∉ first.targets)
        parameter := second.parameter.or first.parameter
        files := first.files ++ second.files }) ∧
    ∀ e, decode more = .error e → decode (bytes ++ more) = .error e := by
  cases hfirst : RequestDescriptor.decode bytes with
  | error e =>
    rw [decode, hfirst] at h
    cases h
  | ok d =>
    rw [decode, hfirst] at h
    obtain rfl : d.request = first := Except.ok.inj h
    have happend : decode (bytes ++ more) = (decode more).map d.request.merge := by
      rw [decode, decode, RequestDescriptor.decode_followed hfirst]
      cases RequestDescriptor.decode more with
      | error e => rfl
      | ok second => exact congrArg Except.ok (request_merge d second)
    constructor
    · intro second hsecond
      rw [happend, hsecond]
      rfl
    · intro e hmore
      rw [happend, hmore]
      rfl

/-- A target `x` and a parameter `p`. -/
def earlierBytes : List UInt8 := [0x0a, 0x01, 0x78, 0x12, 0x01, 0x70]

/-- An unknown group, the targets `y` and `x`, and a file. -/
def laterBytes : List UInt8 :=
  [0x1b, 0x08, 0x01, 0x1c, 0x0a, 0x01, 0x79, 0x0a, 0x01, 0x78, 0x7a, 0x03, 0x0a, 0x01, 0x78]

/-- A file with a name that is longer than what is left. -/
def brokenBytes : List UInt8 := [0x7a, 0x03, 0x0a, 0x02, 0x78]

theorem decode_append_overlapping :
    decode earlierBytes = .ok { targets := ["x"], parameter := some "p" } ∧
    decode laterBytes = .ok { targets := ["y", "x"], files := [{ name := "x" }] } ∧
    decode (earlierBytes ++ laterBytes) = .ok
      { targets := ["x", "y"], parameter := some "p", files := [{ name := "x" }] } ∧
    ∃ e, decode brokenBytes = .error e ∧ e.cause = .underflow ∧
      decode (earlierBytes ++ brokenBytes) = .error e := by
  have hearlier : decode earlierBytes = .ok { targets := ["x"], parameter := some "p" } := by
    with_unfolding_all rfl
  have hlater : decode laterBytes =
      .ok { targets := ["y", "x"], files := [{ name := "x" }] } := by
    with_unfolding_all rfl
  have hbroken : decode brokenBytes = .error ⟨.underflow,
      [⟨"FileDescriptorProto", "name"⟩, ⟨"CodeGeneratorRequest", "proto_file"⟩]⟩ := by
    with_unfolding_all rfl
  refine ⟨hearlier, hlater, ?_, _, hbroken, rfl, (decode_append hearlier brokenBytes).2 _ hbroken⟩
  exact (decode_append hearlier laterBytes).1 _ hlater

end Request

end TopicPlugin
