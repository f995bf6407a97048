import TopicPlugin.Plugin

/-!
# From the source to the sink

One call of a source hands over a chunk, and one call of a sink takes a chunk; `read_cases` and
`write_cases` say all that such a call can do. Reading to the end is then independent of the size of
the chunks, and writing leaves a prefix in the sink, all of it unless the limit is in the way.

What the plugin answers depends on the bytes of the source and on its failure (`answer`). It fails
itself only where its answer could not be delivered.
-/

namespace TopicPlugin

open Wire

namespace Source

theorem read_cases (s : Source) :
    (∃ text, s.pending = [] ∧ s.failure = some text ∧ s.read = .error text) ∨
    (s.pending = [] ∧ s.failure = none ∧ s.read = .ok ([], s)) ∨
    ∃ b bytes, s.pending.take s.chunk = b :: bytes ∧
      s.read = .ok (b :: bytes, { s with pending := s.pending.drop s.chunk }) := by
  obtain ⟨pending, chunk, chunk_pos, failure⟩ := s
  cases pending with
  | nil =>
    cases failure with
    | none => exact .inr (.inl ⟨rfl, rfl, by simp [read]⟩)
    | some text => exact .inl ⟨text, rfl, rfl, rfl⟩
  | cons b bytes =>
    obtain ⟨most, rfl⟩ := Nat.exists_eq_succ_of_ne_zero (Nat.ne_of_gt chunk_pos)
    exact .inr (.inr ⟨b, bytes.take most, rfl, rfl⟩)

/-- Nothing is lost between the chunks, and a failure takes the place of all that came before. -/
theorem readAll_eq (s : Source) :
    s.readAll = match s.failure with
      | none => .ok s.pending
      | some text => .error text := by
  fun_induction readAll s with
  | case1 s text hread =>
    obtain ⟨text', -, hfailure, heq⟩ | ⟨-, -, heq⟩ | ⟨_, _, -, heq⟩ := s.read_cases
    all_goals rw [heq] at hread; cases hread
    rw [hfailure]
  | case2 s s' hread =>
    obtain ⟨_, -, -, heq⟩ | ⟨hpending, hfailure, heq⟩ | ⟨_, _, -, heq⟩ := s.read_cases
    all_goals rw [heq] at hread; cases hread
    rw [hfailure, hpending]
  | case3 s b bytes s' hread ih =>
    obtain ⟨_, -, -, heq⟩ | ⟨-, -, heq⟩ | ⟨_, _, htake, heq⟩ := s.read_cases
    all_goals rw [heq] at hread; cases hread
    rw [ih, ← htake]
    cases s.failure with
    | none => exact congrArg Except.ok (List.take_append_drop ..)
    | some text => rfl

end Source

namespace Sink

theorem refusal?_eq_none_iff {s : Sink} {count : Nat} :
    s.refusal? count = none ↔ ∀ most text, s.limit = some (most, text) →
      s.written.length + count ≤ most := by
  unfold refusal?
  split
  next hlimit => simp [hlimit]
  next most text hlimit => simp [hlimit]

theorem exists_limit_of_refusal? {s : Sink} {count : Nat} {text : String}
    (h : s.refusal? count = some text) :
    ∃ most, s.limit = some (most, text) ∧ most < s.written.length + count := by
  unfold refusal? at h
  split at h
  next => cases h
  next most _ hlimit =>
    split at h
    next => cases h
    next hlt => exact ⟨most, by rw [hlimit, Option.some.inj h], Nat.lt_of_not_le hlt⟩

/-- What is too much stays too much. -/
theorem refusal?_mono {s : Sink} {count more : Nat} {text : String}
    (h : s.refusal? count = some text) (hle : count ≤ more) : s.refusal? more = some text := by
  obtain ⟨most, hlimit, hlt⟩ := exists_limit_of_refusal? h
  simp only [refusal?, hlimit]
  exact if_neg (by omega)

theorem refusal?_written (s : Sink) (bytes : List UInt8) (count : Nat) :
    { s with written := s.written ++ bytes }.refusal? count = s.refusal? (bytes.length + count) := by
  simp only [refusal?, List.length_append, Nat.add_assoc]

theorem write_cases (s : Sink) (bytes : List UInt8) :
    (∃ text count, count ≤ bytes.length ∧ s.refusal? count = some text ∧
      s.write bytes = .error text) ∨
    ∃ taken rest, bytes = taken ++ rest ∧ s.refusal? taken.length = none ∧
      s.write bytes = .ok (taken.length, { s with written := s.written ++ taken }) := by
  unfold write
  cases hrefusal : s.refusal? (bytes.take s.chunk).length with
  | none =>
    exact .inr ⟨_, bytes.drop s.chunk, (List.take_append_drop ..).symm, hrefusal, rfl⟩
  | some text => exact .inl ⟨text, _, List.length_take_le' .., hrefusal, rfl⟩

theorem writeAll_nil (s : Sink) : s.writeAll [] = (s, none) := by
  rw [writeAll]

/-- Writing fails as it would if all were offered in one call. -/
theorem writeAll_error (s : Sink) {bytes : List UInt8} (hbytes : bytes ≠ []) :
    (s.writeAll bytes).2 = s.refusal? bytes.length := by
  fun_induction writeAll s bytes with
  | case1 => exact absurd rfl hbytes
  | case2 s b bytes text hwrite =>
    obtain ⟨_, count, hle, hrefusal, heq⟩ | ⟨_, _, -, -, heq⟩ := s.write_cases (b :: bytes)
    all_goals rw [heq] at hwrite; cases hwrite
    exact (refusal?_mono hrefusal hle).symm
  | case3 s b bytes count s' hwrite ih =>
    obtain ⟨_, _, -, -, heq⟩ | ⟨taken, rest, hsplit, hrefusal, heq⟩ := s.write_cases (b :: bytes)
    all_goals rw [heq] at hwrite; cases hwrite
    rw [hsplit, List.drop_left] at ih ⊢
    by_cases hrest : rest = []
    · rw [hrest, List.append_nil, writeAll_nil, hrefusal]
    · rw [ih hrest, refusal?_written, List.length_append]

/-- What is written is a prefix, and all of it unless writing fails. -/
theorem exists_output_writeAll (s : Sink) (bytes : List UInt8) :
    ∃ output, output <+: bytes ∧
      (s.writeAll bytes).1 = { s with written := s.written ++ output } ∧
      (output = bytes ↔ (s.writeAll bytes).2 = none) := by
  fun_induction writeAll s bytes with
  | case1 s => exact ⟨[], List.prefix_rfl, by rw [List.append_nil], by simp⟩
  | case2 s b bytes text hwrite =>
    exact ⟨[], List.nil_prefix, by rw [List.append_nil], by simp⟩
  | case3 s b bytes count s' hwrite ih =>
    obtain ⟨_, _, -, -, heq⟩ | ⟨taken, rest, hsplit, -, heq⟩ := s.write_cases (b :: bytes)
    all_goals rw [heq] at hwrite; cases hwrite
    rw [hsplit, List.drop_left] at ih ⊢
    obtain ⟨output, hprefix, hfinal, hall⟩ := ih
    refine ⟨taken ++ output, (List.prefix_append_right_inj taken).mpr hprefix, ?_, ?_⟩
    · rw [hfinal, List.append_assoc]
    · rw [List.append_cancel_left_eq, hall]

end Sink

/-- Every response says which features are supported, so none is written as nothing. -/
theorem Response.encode_ne_nil (response : Response) : response.encode ≠ [] := by
  intro h
  have hfeatures : encodeUInt64 2 1 = [] := by
    simp only [Response.encode, ResponseRecord.encode, List.append_eq_nil_iff] at h
    exact h.1.2
  exact absurd hfeatures (by decide +kernel)

namespace Plugin

/-- The response to some bytes, or to the text with which reading failed. -/
def answer (bytes : List UInt8) : Option String → Response
  | none => process (.ok bytes)
  | some text => .failed ("Failed to read input: " ++ ("failed to read request: " ++ text))

theorem process_readAll (source : Source) :
    process source.readAll = answer source.pending source.failure := by
  rw [source.readAll_eq]
  cases source.failure with
  | none => rfl
  | some text => rfl

/-- A response is delivered, or all of it is written and the flush fails, or the sink refuses a part
of it. -/
theorem deliver_cases (response : Response) (sink : Sink) :
    ∃ output, output <+: response.encode ∧
      (deliver response sink).1 = { sink with written := sink.written ++ output } ∧
      ((output = response.encode ∧ sink.refusal? response.encode.length = none ∧
          sink.flushFailure = none ∧ (deliver response sink).2 = .ok ()) ∨
        (output = response.encode ∧ sink.refusal? response.encode.length = none ∧
          ∃ text, sink.flushFailure = some text ∧
            (deliver response sink).2 = .error (.write text)) ∨
        (output ≠ response.encode ∧ ∃ text, sink.refusal? response.encode.length = some text ∧
          (deliver response sink).2 = .error (.write text))) := by
  obtain ⟨output, hprefix, hfinal, hall⟩ := sink.exists_output_writeAll response.encode
  have herror := sink.writeAll_error response.encode_ne_nil
  have hwritten : sink.writeAll response.encode =
      ({ sink with written := sink.written ++ output }, sink.refusal? response.encode.length) :=
    Prod.ext hfinal herror
  rw [herror] at hall
  refine ⟨output, hprefix, ?_⟩
  rw [deliver, hwritten]
  cases hrefusal : sink.refusal? response.encode.length with
  | some text =>
    have hpart : output ≠ response.encode := fun h => by simp [hall.mp h] at hrefusal
    exact ⟨rfl, .inr (.inr ⟨hpart, text, rfl, rfl⟩)⟩
  | none =>
    have hwhole : output = response.encode := hall.mpr hrefusal
    simp only [Sink.flush]
    cases sink.flushFailure with
    | some text => exact ⟨rfl, .inr (.inl ⟨hwhole, trivial, text, rfl, rfl⟩)⟩
    | none => exact ⟨rfl, .inl ⟨hwhole, trivial, rfl, rfl⟩⟩

theorem run_fst (source : Source) (sink : Sink) :
    (run source sink).1 = (deliver (process source.readAll) sink).1 := rfl

theorem run_snd (source : Source) (sink : Sink) :
    (run source sink).2 = (deliver (process source.readAll) sink).2.map fun () =>
      outcomeOf (process source.readAll) := rfl

/-- A run that succeeds has written its whole response. -/
theorem output_of_run {source : Source} {sink : Sink} {outcome : Outcome} {output : List UInt8}
    (hrun : (run source sink).2 = .ok outcome)
    (hwritten : (run source sink).1.written = sink.written ++ output) :
    output = (process source.readAll).encode ∧ outcome = outcomeOf (process source.readAll) := by
  obtain ⟨written, -, hfinal, hcases⟩ := deliver_cases (process source.readAll) sink
  rw [run_fst, hfinal] at hwritten
  rw [run_snd] at hrun
  obtain ⟨hwhole, -, -, hok⟩ | ⟨-, -, text, -, herror⟩ | ⟨-, text, -, herror⟩ := hcases
  · rw [hok] at hrun
    cases hrun
    exact ⟨(List.append_cancel_left hwritten).symm.trans hwhole, rfl⟩
  · rw [herror] at hrun
    cases hrun
  · rw [herror] at hrun
    cases hrun

/-- A sink that refuses nothing has the whole response at the end. -/
theorem run_of_open (source : Source) (sink : Sink) (hlimit : sink.limit = none)
    (hflush : sink.flushFailure = none) :
    (run source sink).2 = .ok (outcomeOf (process source.readAll)) ∧
      (run source sink).1.written = sink.written ++ (process source.readAll).encode := by
  obtain ⟨output, -, hfinal, hcases⟩ := deliver_cases (process source.readAll) sink
  rw [run_fst, run_snd, hfinal]
  obtain ⟨rfl, -, -, hok⟩ | ⟨-, -, text, hfailure, -⟩ | ⟨-, text, hrefusal, -⟩ := hcases
  · rw [hok]
    exact ⟨rfl, rfl⟩
  · rw [hflush] at hfailure
    cases hfailure
  · obtain ⟨most, hmost, -⟩ := Sink.exists_limit_of_refusal? hrefusal
    rw [hlimit] at hmost
    cases hmost

theorem outcomeOf_eq_succeeded_iff {response : Response} :
    outcomeOf response = .succeeded ↔ response.failure = none := by
  rw [outcomeOf, Response.succeeded]
  cases response.failure with
  | none => exact ⟨fun _ => rfl, fun _ => rfl⟩
  | some text => exact ⟨nofun, nofun⟩

/-- The answer is made of the bytes and of the text of a failed reading, whatever the chunks are and
without the bytes if reading failed. A prefix of it is written: all of it if the limit of the sink
allows that. The plugin succeeds exactly if all is written and flushed, and fails by a failure of the
sink only, so nothing that is wrong with a request makes it fail. -/
theorem run_all_or_error (source : Source) (sink : Sink) :
    let response := answer source.pending source.failure
    process source.readAll = response ∧
    ∃ output, output <+: response.encode ∧
      (run source sink).1 = { sink with written := sink.written ++ output } ∧
      (output = response.encode ↔ ∀ most text, sink.limit = some (most, text) →
        sink.written.length + response.encode.length ≤ most) ∧
      ((run source sink).2 = .ok (outcomeOf response) ↔
        output = response.encode ∧ sink.flushFailure = none) ∧
      (¬(output = response.encode ∧ sink.flushFailure = none) →
        ∃ text, (run source sink).2 = .error (.write text) ∧
          if output = response.encode then sink.flushFailure = some text
          else ∃ most, sink.limit = some (most, text)) := by
  intro response
  have hprocess : process source.readAll = response := process_readAll source
  obtain ⟨output, hprefix, hfinal, hcases⟩ := deliver_cases response sink
  refine ⟨hprocess, output, hprefix, ?_⟩
  rw [run_fst, run_snd, hprocess, ← Sink.refusal?_eq_none_iff]
  refine ⟨hfinal, ?_⟩
  obtain ⟨hwhole, hrefusal, hflush, hok⟩ | ⟨hwhole, hrefusal, text, hflush, herror⟩ |
    ⟨hpart, text, hrefusal, herror⟩ := hcases
  · rw [hok]
    exact ⟨⟨fun _ => hrefusal, fun _ => hwhole⟩, ⟨fun _ => ⟨hwhole, hflush⟩, fun _ => rfl⟩,
      fun hnot => absurd ⟨hwhole, hflush⟩ hnot⟩
  · rw [herror, hflush]
    refine ⟨⟨fun _ => hrefusal, fun _ => hwhole⟩, ⟨nofun, fun h => nomatch h.2⟩,
      fun _ => ⟨text, rfl, ?_⟩⟩
    rw [if_pos hwhole]
  · rw [herror, hrefusal]
    obtain ⟨most, hlimit, -⟩ := Sink.exists_limit_of_refusal? hrefusal
    refine ⟨⟨fun h => absurd h hpart, nofun⟩, ⟨nofun, fun h => absurd h.1 hpart⟩,
      fun _ => ⟨text, rfl, ?_⟩⟩
    rw [if_neg hpart]
    exact ⟨most, hlimit⟩

end Plugin

end TopicPlugin
