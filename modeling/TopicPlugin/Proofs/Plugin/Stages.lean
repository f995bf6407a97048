import TopicPlugin.Proofs.Descriptor.ResponseRoundTrip
import TopicPlugin.Proofs.Generation.Success
import TopicPlugin.Proofs.Plugin.Delivery

/-!
# Failures by their stage

A run can fail on its input, on the parameter of the request, or on the conversion of a target file.
The text of a failure begins with a heading of its stage, and no text begins with headings of two
stages. Only a failing conversion leaves artifacts: those of the files before it.

What stops a run can be read off its input (`StopsAt`), and whatever does leads to a failure of its
stage. A failure is not lost on the wire either, so whoever decodes what was written sees how the
run ended.
-/

namespace TopicPlugin

/-- What a run was doing when it failed. -/
inductive Stage where
  | input
  | parameter
  | conversion
  deriving DecidableEq, Repr

namespace Stage

/-- The headings of a stage; that of a conversion has the name of one of the files. -/
def headings (files : List String) : Stage → List String
  | .input => ["Failed to read input: "]
  | .parameter => ["invalid plugin parameter: "]
  | .conversion => files.map fun file => "Failed to convert " ++ file ++ ": "

/-- The text begins with a heading of the stage. -/
def Heads (files : List String) (stage : Stage) (text : String) : Prop :=
  ∃ heading ∈ stage.headings files, ∃ detail, text = heading ++ detail

/-- The eleven characters that all headings of a stage begin with. -/
def opening : Stage → String
  | .input => "Failed to r"
  | .parameter => "invalid plu"
  | .conversion => "Failed to c"

theorem opening_injective : Function.Injective opening := by
  intro stage other h
  cases stage <;> cases other <;> first | rfl | exact absurd h (by decide)

theorem Heads.take_eq {files : List String} {stage : Stage} {text : String}
    (h : stage.Heads files text) : text.toList.take 11 = stage.opening.toList := by
  obtain ⟨heading, hheading, detail, rfl⟩ := h
  cases stage with
  | input =>
    obtain rfl := List.mem_singleton.mp hheading
    simp [opening]
  | parameter =>
    obtain rfl := List.mem_singleton.mp hheading
    simp [opening]
  | conversion =>
    obtain ⟨file, -, rfl⟩ := List.mem_map.mp hheading
    simp [opening]

/-- The stages are told apart by their headings, whatever the names of the files are. -/
theorem Heads.unique {files others : List String} {stage other : Stage} {text : String}
    (h : stage.Heads files text) (hother : other.Heads others text) : other = stage :=
  opening_injective (String.toList_injective (hother.take_eq.symm.trans h.take_eq))

theorem Heads.ne_empty {files : List String} {stage : Stage} {text : String}
    (h : stage.Heads files text) : text ≠ "" := by
  rintro rfl
  have htake := h.take_eq
  cases stage <;> simp [opening] at htake

end Stage

/-- The run of a request stops at a target file: the text says which one, and the artifacts are those
of the annotated messages in target files positioned before it. -/
def Request.StopsWith (request : Request) (text : String) (artifacts : List Artifact) : Prop :=
  ∃ settings position file detail, Settings.ofParameter request.parameter = .ok settings ∧
    request.files[position]? = some file ∧ request.isTarget file = true ∧
    text = "Failed to convert " ++ file.name ++ ": " ++ detail ∧
    artifacts.map .ok = (request.annotated.filter (·.position < position)).map
      ((Generator.ofSettings settings).artifactOf request.tree)

theorem Request.stopsWith_of_generate {request : Request} {settings : Settings} {text : String}
    (hsettings : Settings.ofParameter request.parameter = .ok settings)
    (h : ((Generator.ofSettings settings).generate request).response.failure = some text) :
    request.StopsWith text
      ((Generator.ofSettings settings).generate request).response.artifacts := by
  generalize hg : Generator.ofSettings settings = g at h ⊢
  obtain ⟨hfailure, hartifacts⟩ := g.generate_eq request
  change ((g.generate request).failure.map (·.message)) = some text at h
  rw [hfailure] at h
  cases hfirst : g.firstObstacle? request.tree [] request.annotated with
  | none =>
    rw [hfirst] at h
    cases h
  | some found =>
    obtain ⟨a, cause⟩ := found
    rw [hfirst] at h hartifacts
    cases h
    obtain ⟨hfile, htarget⟩ :=
      Generator.of_mem_annotated (g.mem_of_firstObstacle? request.tree hfirst)
    exact ⟨settings, a.position, a.file, cause.message, hsettings, hfile, htarget, rfl,
      hg ▸ hartifacts⟩

namespace Plugin

/-- The names of the target files of the request that was decoded, if one was. -/
def targetNames (input : Except String (List UInt8)) : List String :=
  match requestOf input with
  | .error _ => []
  | .ok request => request.targetFiles.map (·.name)

/-- The failure of a response comes from a stage, and with it the artifacts. -/
def FailsAt (input : Except String (List UInt8)) (text : String) (artifacts : List Artifact) :
    Stage → Prop
  | .input => artifacts = [] ∧ ∃ e, requestOf input = .error e ∧
    text = "Failed to read input: " ++ e.message
  | .parameter => artifacts = [] ∧ ∃ request fault, requestOf input = .ok request ∧
    Settings.ofParameter request.parameter = .error fault ∧
    text = "invalid plugin parameter: " ++ fault.message
  | .conversion => ∃ request, requestOf input = .ok request ∧ request.StopsWith text artifacts

/-- What stops a run at a stage: there is no request, its parameter gives no settings, or its
annotated messages cannot all have their artifacts. -/
def StopsAt (input : Except String (List UInt8)) : Stage → Prop
  | .input => ∃ e, requestOf input = .error e
  | .parameter => ∃ request fault, requestOf input = .ok request ∧
    Settings.ofParameter request.parameter = .error fault
  | .conversion => ∃ request settings, requestOf input = .ok request ∧
    Settings.ofParameter request.parameter = .ok settings ∧
    ¬(Generator.ofSettings settings).Unobstructed request.tree
      (request.targetFiles.flatMap (·.annotated))

theorem process_of_settings {input : Except String (List UInt8)} {request : Request}
    {settings : Settings} (hrequest : requestOf input = .ok request)
    (hsettings : Settings.ofParameter request.parameter = .ok settings) :
    process input = ((Generator.ofSettings settings).generate request).response := by
  simp only [process, hrequest, respond, hsettings]

theorem failsAt_of_process {input : Except String (List UInt8)} {request : Request}
    {settings : Settings} (hrequest : requestOf input = .ok request)
    (hsettings : Settings.ofParameter request.parameter = .ok settings) {text : String}
    (htext : (process input).failure = some text) :
    FailsAt input text (process input).artifacts .conversion := by
  rw [process_of_settings hrequest hsettings] at htext ⊢
  exact ⟨request, hrequest, Request.stopsWith_of_generate hsettings htext⟩

/-- Nothing that stops a run goes without a failure of its stage. -/
theorem StopsAt.exists_failure {input : Except String (List UInt8)} {stage : Stage}
    (h : StopsAt input stage) :
    ∃ text, (process input).failure = some text ∧
      FailsAt input text (process input).artifacts stage := by
  cases stage with
  | input =>
    obtain ⟨e, hrequest⟩ := h
    have hprocess : process input = .failed ("Failed to read input: " ++ e.message) := by
      rw [process, hrequest]
    rw [hprocess]
    exact ⟨_, rfl, rfl, e, hrequest, rfl⟩
  | parameter =>
    obtain ⟨request, fault, hrequest, hsettings⟩ := h
    have hprocess :
        process input = .failed (Failure.invalidParameter fault.message).message := by
      simp only [process, hrequest, respond, hsettings]
    rw [hprocess]
    exact ⟨_, rfl, rfl, request, fault, hrequest, hsettings, rfl⟩
  | conversion =>
    obtain ⟨request, settings, hrequest, hsettings, hobstructed⟩ := h
    have hfailure : (process input).failure ≠ none := by
      rw [process_of_settings hrequest hsettings]
      intro hnone
      apply hobstructed
      exact (Generator.failure_eq_none_iff request).mp (Option.map_eq_none_iff.mp hnone)
    obtain ⟨text, htext⟩ := Option.ne_none_iff_exists'.mp hfailure
    exact ⟨text, htext, failsAt_of_process hrequest hsettings htext⟩

theorem exists_stopsAt {input : Except String (List UInt8)}
    (h : (process input).failure ≠ none) : ∃ stage, StopsAt input stage := by
  cases hrequest : requestOf input with
  | error e => exact ⟨.input, e, hrequest⟩
  | ok request =>
    cases hsettings : Settings.ofParameter request.parameter with
    | error fault => exact ⟨.parameter, request, fault, hrequest, hsettings⟩
    | ok settings =>
      refine ⟨.conversion, request, settings, hrequest, hsettings, fun hfree => h ?_⟩
      rw [process_of_settings hrequest hsettings]
      exact Option.map_eq_none_iff.mpr ((Generator.failure_eq_none_iff request).mpr hfree)

theorem exists_stage {input : Except String (List UInt8)} {text : String}
    (h : (process input).failure = some text) :
    ∃ stage, StopsAt input stage ∧ FailsAt input text (process input).artifacts stage := by
  obtain ⟨stage, hstops⟩ := exists_stopsAt (Option.ne_none_iff_exists'.mpr ⟨text, h⟩)
  obtain ⟨other, hother, hfails⟩ := hstops.exists_failure
  obtain rfl : other = text := Option.some.inj (hother.symm.trans h)
  exact ⟨stage, hstops, hfails⟩

theorem FailsAt.heads {input : Except String (List UInt8)} {text : String}
    {artifacts : List Artifact} {stage : Stage} (h : FailsAt input text artifacts stage) :
    stage.Heads (targetNames input) text := by
  cases stage with
  | input =>
    obtain ⟨-, e, -, rfl⟩ := h
    exact ⟨_, List.mem_singleton_self _, _, rfl⟩
  | parameter =>
    obtain ⟨-, request, fault, -, -, rfl⟩ := h
    exact ⟨_, List.mem_singleton_self _, _, rfl⟩
  | conversion =>
    obtain ⟨request, hrequest, _, position, file, detail, -, hfile, htarget, rfl, -⟩ := h
    have hname : file.name ∈ targetNames input := by
      rw [targetNames, hrequest]
      exact List.mem_map_of_mem (List.mem_filter.mpr ⟨List.mem_of_getElem? hfile, htarget⟩)
    exact ⟨_, List.mem_map_of_mem hname, detail, rfl⟩

/-- A run stops at a stage exactly if its response has a failure that is headed by the stage. So an
input that cannot be read or decoded, a parameter that is refused and a message that cannot have its
artifact are all reported. -/
theorem stopsAt_iff (input : Except String (List UInt8)) (stage : Stage) :
    StopsAt input stage ↔ ∃ text, (process input).failure = some text ∧
      stage.Heads (targetNames input) text := by
  constructor
  · intro h
    obtain ⟨text, htext, hfails⟩ := h.exists_failure
    exact ⟨text, htext, hfails.heads⟩
  · rintro ⟨text, htext, hheads⟩
    obtain ⟨other, hstops, hfails⟩ := exists_stage htext
    obtain rfl := hheads.unique hfails.heads
    exact hstops

/-- A failure of a response is never empty, is headed by its stage and by no other, and has only the
artifacts that its stage leaves. The outcome of a run that delivers its response is what can be read
from the bytes: it has succeeded if they are a response without a failure, and otherwise not, as long
as their number fits in 64 bits. -/
theorem failures_visible (source : Source) (sink : Sink) :
    let input := source.readAll
    (∀ text, (process input).failure = some text → text ≠ "" ∧
      ∃ stage, FailsAt input text (process input).artifacts stage ∧
        stage.Heads (targetNames input) text ∧
        ∀ (other : Stage) (files : List String), other.Heads files text → other = stage) ∧
    ∀ outcome output, (run source sink).2 = .ok outcome →
      (run source sink).1.written = sink.written ++ output →
      ((∃ record, ResponseRecord.decode output = .ok record ∧ record.failure = none) →
        outcome = .succeeded) ∧
      (output.length < 0x10000000000000000 →
        (outcome = .succeeded ↔
          ∃ record, ResponseRecord.decode output = .ok record ∧ record.failure = none)) := by
  intro input
  refine ⟨fun text htext => ?_, fun outcome output hrun hwritten => ?_⟩
  · obtain ⟨stage, -, hstage⟩ := exists_stage htext
    exact ⟨hstage.heads.ne_empty, stage, hstage, hstage.heads,
      fun other files hother => hstage.heads.unique hother⟩
  · obtain ⟨rfl, rfl⟩ := output_of_run hrun hwritten
    rw [outcomeOf_eq_succeeded_iff]
    have hread : (∃ record, ResponseRecord.decode (process input).encode = .ok record ∧
        record.failure = none) → (process input).failure = none := by
      rintro ⟨record, hrecord, hnone⟩
      by_contra hfailure
      have hsome := ResponseRecord.isSome_failure_of_decode
        (Option.isSome_iff_ne_none.mpr hfailure) hrecord
      simp [hnone] at hsome
    refine ⟨hread, fun hsize => ⟨fun hnone => ?_, hread⟩⟩
    exact ⟨_, ResponseRecord.decode_of_encode hsize, hnone⟩

/-- Two files with one message each that ask for artifacts of one name. -/
def clashing : RequestDescriptor where
  targets := ["a", "b"]
  parameter := some "content=placeholder"
  files := ["a", "b"].map fun name => { name := some name, messages := [{
    name := some "M", options := some ⟨some ⟨some "t"⟩⟩ }] }

def clashingSource : Source where
  pending := clashing.encode
  chunk := 8
  chunk_pos := by decide

def emptySource : Source where
  pending := []
  chunk := 8
  chunk_pos := by decide

def openSink : Sink where
  chunk := 8
  chunk_pos := by decide

theorem decode_clashing : RequestDescriptor.decode clashing.encode = .ok clashing := by
  have hmessage : MessageDescriptor.encode
      { name := some "M", options := some ⟨some ⟨some "t"⟩⟩ } =
        [0x0a, 0x01, 0x4d, 0x3a, 0x07, 0xaa, 0xbb, 0x18, 0x03, 0x0a, 0x01, 0x74] := by
    rw [MessageDescriptor.encode]
    decide +kernel
  have hsize : clashing.encode.length < 0x10000000000000000 := by
    simp only [clashing, RequestDescriptor.encode, FileDescriptor.encode, List.map_cons,
      List.map_nil, hmessage]
    decide +kernel
  have hlevels : clashing.levels.all (· ≤ Wire.recursionBudget) = true := by cbv
  apply (clashing.runs (RequestDescriptor.form_encode hsize)).decodeRecord_eq_ok
  simpa using hlevels

theorem process_clashing : process clashingSource.readAll =
    ⟨[⟨"t.schema", "pubSubTOPIC!"⟩], some ("Failed to convert b: " ++
      "artifact `t.schema` for message `M` was already generated")⟩ := by
  have hrequest : clashing.request =
      { targets := ["a", "b"]
        parameter := some "content=placeholder"
        files := ["a", "b"].map fun name => { name, messages := [{
          name := "M", options := some ⟨some ⟨some "t"⟩⟩ }] } } := by
    cbv
  have hprocess : process clashingSource.readAll = respond clashing.request := by
    rw [process_readAll]
    show process (.ok clashing.encode) = respond clashing.request
    simp only [process, requestOf, Request.decode, decode_clashing]
    rfl
  rw [hprocess, hrequest]
  decide +kernel

/-- The second file stops the run, and the first one keeps its artifact. Nothing stops the run of an
empty request. -/
theorem failures_visible_clashing :
    (∃ text, (process clashingSource.readAll).failure = some text ∧ text ≠ "" ∧
      FailsAt clashingSource.readAll text [⟨"t.schema", "pubSubTOPIC!"⟩] .conversion) ∧
    (run clashingSource openSink).2 = .ok .reported ∧
    (¬∃ record, ResponseRecord.decode (run clashingSource openSink).1.written = .ok record ∧
      record.failure = none) ∧
    (run emptySource openSink).2 = .ok .succeeded ∧
    (run emptySource openSink).1.written.length < 0x10000000000000000 ∧
    ∃ record, ResponseRecord.decode (run emptySource openSink).1.written = .ok record ∧
      record.failure = none := by
  have htext := congrArg Response.failure process_clashing
  have hempty : process emptySource.readAll = {} := by
    rw [process_readAll]
    decide +kernel
  have hreported : (run clashingSource openSink).2 = .ok .reported := by
    rw [(run_of_open clashingSource openSink rfl rfl).1, process_clashing]
    rfl
  obtain ⟨hsucceeded, hwritten⟩ := run_of_open emptySource openSink rfl rfl
  rw [hempty] at hsucceeded hwritten
  have hsize : (run emptySource openSink).1.written.length < 0x10000000000000000 := by
    rw [hwritten]
    decide +kernel
  obtain ⟨hfailures, hclashing⟩ := failures_visible clashingSource openSink
  obtain ⟨-, hnothing⟩ := failures_visible emptySource openSink
  refine ⟨⟨_, htext, ?_⟩, hreported, fun hrecord => ?_, hsucceeded, hsize, ?_⟩
  · obtain ⟨hne, stage, hfails, -, hunique⟩ := hfailures _ htext
    obtain rfl : Stage.conversion = stage :=
      hunique .conversion ["b"] ⟨_, List.mem_singleton_self _, _, rfl⟩
    rw [process_clashing] at hfails
    exact ⟨hne, hfails⟩
  · exact absurd ((hclashing .reported _ hreported rfl).1 hrecord) nofun
  · exact ((hnothing .succeeded _ hsucceeded rfl).2 hsize).mp rfl

end Plugin

end TopicPlugin
