import Mathlib.Order.Bounds.Basic
import TopicPlugin.Generation

/-!
# The first obstacle ends a run

The work of a run is the list of annotated messages in the target files, in the order of the files
and of the declarations. An obstacle is a name that is taken already or, failing that, a formatter
that fails. A run without one makes an artifact of each message; otherwise the first one decides the
failure, and what was made for the files before its own is all that stays. Files are told apart by
their positions, since several may share a name.
-/

namespace TopicPlugin

/-- A message that asks for an artifact, with its file and the position of the file. -/
structure Annotated where
  position : Nat
  file : File
  message : Message
  topic : Topic

def Annotated.context (a : Annotated) (t : Namespace.Tree Message) : Context :=
  ⟨a.file, a.message, a.topic, a.file.scope t, t⟩

/-- The annotated messages among some of the messages of a file. -/
def File.annotatedIn (file : File) (position : Nat) (messages : List Message) : List Annotated :=
  messages.filterMap fun message => message.topic?.map fun topic => ⟨position, file, message, topic⟩

namespace Request

/-- The annotated messages of the targets among files that stand from a position on. -/
def annotatedFrom (request : Request) (start : Nat) (files : List File) : List Annotated :=
  (files.zipIdx start).flatMap fun (file, position) =>
    if request.isTarget file then file.annotatedIn position file.messages else []

def annotated (request : Request) : List Annotated := request.annotatedFrom 0 request.files

end Request

namespace Generator

def nameOf (g : Generator) (a : Annotated) : String := g.nameFor a.file a.topic

/-- The artifact that a message leads to on its own. -/
def artifactOf (g : Generator) (t : Namespace.Tree Message) (a : Annotated) :
    Except Failure Artifact :=
  (g.formatter (a.context t)).map fun content => ⟨g.nameOf a, content⟩

/-- Why a message cannot have its artifact, if it cannot; the name is looked at first. -/
def obstacleAmong? (g : Generator) (t : Namespace.Tree Message) (used : List String)
    (a : Annotated) : Option Failure :=
  if g.nameOf a ∈ used then some (.duplicateArtifact (g.nameOf a) a.message.name)
  else match g.formatter (a.context t) with
    | .error failure => some failure
    | .ok _ => none

/-- What is in the way of an annotated message of a request, by its index. -/
def obstacle? (g : Generator) (request : Request) (index : Nat) : Option Failure :=
  request.annotated[index]?.bind
    (g.obstacleAmong? request.tree ((request.annotated.take index).map g.nameOf))

/-- Goes through messages up to the first with an obstacle. -/
def firstObstacle? (g : Generator) (t : Namespace.Tree Message) (used : List String) :
    List Annotated → Option (Annotated × Failure)
  | [] => none
  | a :: rest =>
    match g.obstacleAmong? t used a with
    | some failure => some (a, failure)
    | none => g.firstObstacle? t (used ++ [g.nameOf a]) rest

variable (g : Generator) (t : Namespace.Tree Message)

section

variable {used : List String} {a : Annotated}

theorem firstObstacle?_of_obstacle {failure : Failure}
    (h : g.obstacleAmong? t used a = some failure) (rest : List Annotated) :
    g.firstObstacle? t used (a :: rest) = some (a, failure) := by
  rw [firstObstacle?, h]

theorem firstObstacle?_of_free (h : g.obstacleAmong? t used a = none) (rest : List Annotated) :
    g.firstObstacle? t used (a :: rest) = g.firstObstacle? t (used ++ [g.nameOf a]) rest := by
  rw [firstObstacle?, h]

end

theorem free_of_firstObstacle?_eq_none {used : List String} {work : List Annotated}
    (h : g.firstObstacle? t used work = none) (i : Nat) :
    work[i]?.bind (g.obstacleAmong? t (used ++ (work.take i).map g.nameOf)) = none := by
  induction work generalizing used i with
  | nil => rfl
  | cons a rest ih =>
    cases ha : g.obstacleAmong? t used a with
    | some failure =>
      rw [g.firstObstacle?_of_obstacle t ha] at h
      cases h
    | none =>
      rw [g.firstObstacle?_of_free t ha] at h
      cases i with
      | zero => simpa using ha
      | succ i => simpa using ih h i

/-- The first obstacle has an index, and nothing before it is in the way. -/
theorem exists_index_of_firstObstacle? {used : List String} {work : List Annotated}
    {a : Annotated} {failure : Failure} (h : g.firstObstacle? t used work = some (a, failure)) :
    ∃ j, work[j]? = some a ∧
      g.obstacleAmong? t (used ++ (work.take j).map g.nameOf) a = some failure ∧
      ∀ i < j, work[i]?.bind (g.obstacleAmong? t (used ++ (work.take i).map g.nameOf)) = none := by
  induction work generalizing used with
  | nil => cases h
  | cons b rest ih =>
    cases hb : g.obstacleAmong? t used b with
    | some found =>
      rw [g.firstObstacle?_of_obstacle t hb] at h
      cases h
      exact ⟨0, rfl, by simpa using hb, fun i hi => absurd hi (Nat.not_lt_zero i)⟩
    | none =>
      rw [g.firstObstacle?_of_free t hb] at h
      obtain ⟨j, ha, hfailure, hfirst⟩ := ih h
      refine ⟨j + 1, ha, by simpa using hfailure, fun i hi => ?_⟩
      cases i with
      | zero => simpa using hb
      | succ i => simpa using hfirst i (by omega)

theorem mem_of_firstObstacle? {used : List String} {work : List Annotated} {a : Annotated}
    {failure : Failure} (h : g.firstObstacle? t used work = some (a, failure)) : a ∈ work := by
  obtain ⟨j, ha, -⟩ := g.exists_index_of_firstObstacle? t h
  exact List.mem_of_getElem? ha

theorem firstObstacle?_append (used : List String) (left right : List Annotated) :
    g.firstObstacle? t used (left ++ right) =
      (g.firstObstacle? t used left).or
        (g.firstObstacle? t (used ++ left.map g.nameOf) right) := by
  induction left generalizing used with
  | nil => simp [firstObstacle?]
  | cons a left ih =>
    rw [List.cons_append]
    cases ha : g.obstacleAmong? t used a with
    | some failure =>
      rw [g.firstObstacle?_of_obstacle t ha, g.firstObstacle?_of_obstacle t ha, Option.some_or]
    | none =>
      rw [g.firstObstacle?_of_free t ha, g.firstObstacle?_of_free t ha, ih, List.map_cons,
        List.append_assoc, List.singleton_append]

theorem name_of_artifactOf {a : Annotated} {artifact : Artifact}
    (h : g.artifactOf t a = .ok artifact) : artifact.name = g.nameOf a := by
  unfold artifactOf at h
  cases hf : g.formatter (a.context t) with
  | error failure =>
    rw [hf] at h
    cases h
  | ok content =>
    rw [hf] at h
    cases h
    rfl

theorem names_of_artifacts {artifacts : List Artifact} {work : List Annotated}
    (h : artifacts.map .ok = work.map (g.artifactOf t)) :
    artifacts.map (·.name) = work.map g.nameOf := by
  induction work generalizing artifacts with
  | nil =>
    obtain rfl : artifacts = [] := by simpa using h
    rfl
  | cons a work ih =>
    cases artifacts with
    | nil => cases h
    | cons artifact artifacts =>
      obtain ⟨hhead, htail⟩ := List.cons.inj h
      rw [List.map_cons, List.map_cons, g.name_of_artifactOf t hhead.symm, ih htail]

section

variable {file : File} {message : Message} {topic : Topic} {position : Nat}

theorem annotatedIn_of_none (h : message.topic? = none) (messages : List Message) :
    file.annotatedIn position (message :: messages) = file.annotatedIn position messages := by
  simp [File.annotatedIn, h]

theorem annotatedIn_of_some (h : message.topic? = some topic) (messages : List Message) :
    file.annotatedIn position (message :: messages) =
      ⟨position, file, message, topic⟩ :: file.annotatedIn position messages := by
  simp [File.annotatedIn, h]

theorem of_mem_annotatedIn {messages : List Message} {a : Annotated}
    (h : a ∈ file.annotatedIn position messages) : a.position = position ∧ a.file = file := by
  obtain ⟨message, -, hm⟩ := List.mem_filterMap.mp h
  obtain ⟨topic, -, rfl⟩ := Option.map_eq_some_iff.mp hm
  exact ⟨rfl, rfl⟩

theorem messageArtifacts_of_none (h : message.topic? = none) (taken : List String)
    (messages : List Message) :
    g.messageArtifacts t file taken (message :: messages) =
      g.messageArtifacts t file taken messages := by
  rw [messageArtifacts, h]

/-- A step over an annotated message stops at its obstacle, or makes its artifact and goes on. -/
theorem messageArtifacts_of_some (h : message.topic? = some topic) (position : Nat)
    (taken : List String) (messages : List Message) :
    g.messageArtifacts t file taken (message :: messages) =
      match g.obstacleAmong? t taken ⟨position, file, message, topic⟩ with
      | some failure => .error failure
      | none => (g.artifactOf t ⟨position, file, message, topic⟩).bind fun artifact =>
        (g.messageArtifacts t file (g.nameFor file topic :: taken) messages).map
          (artifact :: ·) := by
  have hname : g.nameOf ⟨position, file, message, topic⟩ = g.nameFor file topic := rfl
  have hcontext : Annotated.context ⟨position, file, message, topic⟩ t =
      ⟨file, message, topic, file.scope t, t⟩ := rfl
  rw [messageArtifacts, h, obstacleAmong?, artifactOf, hname, hcontext]
  change (if g.nameFor file topic ∈ taken then _ else _) = _
  by_cases hin : g.nameFor file topic ∈ taken
  · rw [if_pos hin, if_pos hin]
  · rw [if_neg hin, if_neg hin]
    cases g.formatter ⟨file, message, topic, file.scope t, t⟩ with
    | error failure => rfl
    | ok content =>
      change (g.messageArtifacts t file (g.nameFor file topic :: taken) messages).bind _ = _
      cases g.messageArtifacts t file (g.nameFor file topic :: taken) messages <;> rfl

end

theorem obstacleAmong?_congr {taken used : List String}
    (h : ∀ name, name ∈ taken ↔ name ∈ used) (a : Annotated) :
    g.obstacleAmong? t taken a = g.obstacleAmong? t used a := by
  rw [obstacleAmong?, obstacleAmong?, if_congr (h _) rfl rfl]

theorem exists_artifact_of_free {used : List String} {a : Annotated}
    (h : g.obstacleAmong? t used a = none) : ∃ artifact, g.artifactOf t a = .ok artifact := by
  rw [obstacleAmong?] at h
  rw [artifactOf]
  by_cases hin : g.nameOf a ∈ used
  · rw [if_pos hin] at h
    cases h
  · rw [if_neg hin] at h
    cases hf : g.formatter (a.context t) with
    | error failure =>
      rw [hf] at h
      cases h
    | ok content => exact ⟨_, rfl⟩

/-- A file fails with its first obstacle, or all its annotated messages get their artifacts. Of the
names taken before only the set matters. -/
theorem messageArtifacts_eq {taken used : List String} (h : ∀ name, name ∈ taken ↔ name ∈ used)
    (file : File) (position : Nat) (messages : List Message) :
    (∀ a failure, g.firstObstacle? t used (file.annotatedIn position messages) = some (a, failure) →
      g.messageArtifacts t file taken messages = .error failure) ∧
    (g.firstObstacle? t used (file.annotatedIn position messages) = none →
      ∃ artifacts, g.messageArtifacts t file taken messages = .ok artifacts ∧
        artifacts.map .ok = (file.annotatedIn position messages).map (g.artifactOf t)) := by
  induction messages generalizing taken used with
  | nil =>
    constructor
    · intro a failure hfirst
      cases hfirst
    · intro _
      exact ⟨[], rfl, rfl⟩
  | cons message messages ih =>
    cases ht : message.topic? with
    | none =>
      rw [annotatedIn_of_none ht, g.messageArtifacts_of_none t ht]
      exact ih h
    | some topic =>
      rw [annotatedIn_of_some ht, g.messageArtifacts_of_some t ht position,
        g.obstacleAmong?_congr t h]
      cases ha : g.obstacleAmong? t used ⟨position, file, message, topic⟩ with
      | some failure =>
        rw [g.firstObstacle?_of_obstacle t ha]
        constructor
        · intro a found hfirst
          cases hfirst
          rfl
        · intro hfirst
          cases hfirst
      | none =>
        have hnext : ∀ name, name ∈ g.nameFor file topic :: taken ↔
            name ∈ used ++ [g.nameOf ⟨position, file, message, topic⟩] := by
          intro name
          rw [List.mem_cons, List.mem_append, List.mem_singleton, h, or_comm]
          rfl
        obtain ⟨herror, hok⟩ := ih hnext
        obtain ⟨artifact, hartifact⟩ := g.exists_artifact_of_free t ha
        rw [g.firstObstacle?_of_free t ha, List.map_cons, hartifact]
        constructor
        · intro a failure hfirst
          change Except.map _ (g.messageArtifacts t file _ messages) = _
          rw [herror a failure hfirst]
          rfl
        · intro hfirst
          obtain ⟨artifacts, hmade, hmap⟩ := hok hfirst
          refine ⟨artifact :: artifacts, ?_, ?_⟩
          · change Except.map _ (g.messageArtifacts t file _ messages) = _
            rw [hmade]
            rfl
          · rw [List.map_cons, hmap]

section

variable {request : Request}

theorem annotatedFrom_of_target {file : File} (h : request.isTarget file = true) (start : Nat)
    (files : List File) :
    request.annotatedFrom start (file :: files) =
      file.annotatedIn start file.messages ++ request.annotatedFrom (start + 1) files := by
  simp [Request.annotatedFrom, h]

theorem annotatedFrom_of_not_target {file : File} (h : request.isTarget file = false)
    (start : Nat) (files : List File) :
    request.annotatedFrom start (file :: files) = request.annotatedFrom (start + 1) files := by
  simp [Request.annotatedFrom, h]

theorem le_position_of_mem {start : Nat} {files : List File} {a : Annotated}
    (h : a ∈ request.annotatedFrom start files) : start ≤ a.position := by
  obtain ⟨⟨file, position⟩, hfile, ha⟩ := List.mem_flatMap.mp h
  have hstart := List.le_snd_of_mem_zipIdx hfile
  change a ∈ (if request.isTarget file = true then _ else _) at ha
  split at ha
  · rw [(of_mem_annotatedIn ha).1]
    exact hstart
  · cases ha

/-- A message is annotated with a target file of the request and with the position of the file. -/
theorem of_mem_annotated {a : Annotated} (h : a ∈ request.annotated) :
    request.files[a.position]? = some a.file ∧ request.isTarget a.file = true := by
  obtain ⟨⟨file, position⟩, hfile, ha⟩ := List.mem_flatMap.mp h
  change a ∈ (if request.isTarget file = true then _ else _) at ha
  split at ha
  next htarget =>
    obtain ⟨hposition, hfileEq⟩ := of_mem_annotatedIn ha
    rw [hposition, hfileEq]
    exact ⟨List.mem_zipIdx_iff_getElem?.mp hfile, htarget⟩
  next => cases ha

/-- Nothing that starts at a position stands before it. -/
theorem filter_annotatedFrom_eq_nil {start position : Nat} (h : position ≤ start)
    (files : List File) :
    (request.annotatedFrom start files).filter (·.position < position) = [] := by
  rw [List.filter_eq_nil_iff]
  intro a ha
  have hstart := le_position_of_mem ha
  simp only [decide_eq_true_eq]
  omega

/-- The work of one file stands before a position as a whole or not at all. -/
theorem filter_annotatedIn (file : File) (start position : Nat) (messages : List Message) :
    (file.annotatedIn start messages).filter (·.position < position) =
      if start < position then file.annotatedIn start messages else [] := by
  split
  next h =>
    rw [List.filter_eq_self]
    intro a ha
    rw [(of_mem_annotatedIn ha).1]
    exact decide_eq_true h
  next h =>
    rw [List.filter_eq_nil_iff]
    intro a ha
    rw [(of_mem_annotatedIn ha).1]
    simpa using h

theorem generateFiles_of_error {taken : List String} {file : File} {failure : Failure}
    (h : g.fileArtifacts t taken file = .error failure) (files : List File) :
    g.generateFiles t taken (file :: files) = { failure := some (.inFile file.name failure) } := by
  rw [generateFiles, h]

theorem generateFiles_of_ok {taken : List String} {file : File} {artifacts : List Artifact}
    (h : g.fileArtifacts t taken file = .ok artifacts) (files : List File) :
    g.generateFiles t taken (file :: files) =
      ⟨artifacts ++ (g.generateFiles t (artifacts.map (·.name) ++ taken) files).artifacts,
        (g.generateFiles t (artifacts.map (·.name) ++ taken) files).failure⟩ := by
  rw [generateFiles, h]

/-- The part of some work that stays: what is in the files before that of the first obstacle. -/
def kept (work : List Annotated) : Option (Annotated × Failure) → List Annotated
  | some (a, _) => work.filter (·.position < a.position)
  | none => work

/-- An obstacle in the first file leaves nothing. -/
theorem kept_of_first (request : Request) {file : File} {start : Nat} {messages : List Message}
    {a : Annotated} (h : a ∈ file.annotatedIn start messages) (failure : Failure)
    (files : List File) :
    kept (file.annotatedIn start messages ++ request.annotatedFrom (start + 1) files)
      (some (a, failure)) = [] := by
  rw [kept, (of_mem_annotatedIn h).1, List.filter_append, filter_annotatedIn,
    if_neg (Nat.lt_irrefl start), filter_annotatedFrom_eq_nil (Nat.le_succ start),
    List.append_nil]

/-- An obstacle in a later file, or none, leaves the first file as a whole. -/
theorem kept_of_later {request : Request} {start : Nat} {files : List File}
    {found : Option (Annotated × Failure)}
    (h : ∀ a failure, found = some (a, failure) → a ∈ request.annotatedFrom (start + 1) files)
    (file : File) (messages : List Message) :
    kept (file.annotatedIn start messages ++ request.annotatedFrom (start + 1) files) found =
      file.annotatedIn start messages ++
        kept (request.annotatedFrom (start + 1) files) found := by
  cases found with
  | none => rfl
  | some found =>
    have hlt : start < found.1.position := le_position_of_mem (h found.1 found.2 rfl)
    rw [kept, kept, List.filter_append, filter_annotatedIn, if_pos hlt]

/-- The names used after a file are those used before and those of its artifacts. -/
theorem mem_names_iff_of_artifacts {taken used : List String} {artifacts : List Artifact}
    {work : List Annotated} (h : ∀ name, name ∈ taken ↔ name ∈ used)
    (hmap : artifacts.map .ok = work.map (g.artifactOf t)) (name : String) :
    name ∈ artifacts.map (·.name) ++ taken ↔ name ∈ used ++ work.map g.nameOf := by
  rw [g.names_of_artifacts t hmap, List.mem_append, List.mem_append, h, or_comm]

/-- A run over files makes the artifacts of the part that stays, and reports the first obstacle. -/
theorem generateFiles_eq {taken used : List String} (h : ∀ name, name ∈ taken ↔ name ∈ used)
    (start : Nat) (files : List File) :
    (g.generateFiles t taken (files.filter request.isTarget)).failure =
      (g.firstObstacle? t used (request.annotatedFrom start files)).map
        (fun found => .inFile found.1.file.name found.2) ∧
    (g.generateFiles t taken (files.filter request.isTarget)).artifacts.map .ok =
      (kept (request.annotatedFrom start files)
        (g.firstObstacle? t used (request.annotatedFrom start files))).map (g.artifactOf t) := by
  induction files generalizing taken used start with
  | nil => exact ⟨rfl, rfl⟩
  | cons file files ih =>
    cases htarget : request.isTarget file with
    | false =>
      rw [annotatedFrom_of_not_target htarget, List.filter_cons_of_neg (by simp [htarget])]
      exact ih h (start + 1)
    | true =>
      rw [annotatedFrom_of_target htarget, List.filter_cons_of_pos htarget,
        g.firstObstacle?_append]
      obtain ⟨herror, hok⟩ := g.messageArtifacts_eq t h file start file.messages
      cases hfirst : g.firstObstacle? t used (file.annotatedIn start file.messages) with
      | some found =>
        obtain ⟨a, failure⟩ := found
        have hin := g.mem_of_firstObstacle? t hfirst
        rw [g.generateFiles_of_error t (herror a failure hfirst), Option.some_or,
          kept_of_first request hin, ← (of_mem_annotatedIn hin).2]
        exact ⟨rfl, rfl⟩
      | none =>
        obtain ⟨artifacts, hmade, hmap⟩ := hok hfirst
        obtain ⟨hfailure, hothers⟩ := ih (g.mem_names_iff_of_artifacts t h hmap) (start + 1)
        rw [g.generateFiles_of_ok t hmade, Option.none_or]
        refine ⟨hfailure, ?_⟩
        rw [kept_of_later fun a failure hlater => g.mem_of_firstObstacle? t hlater,
          List.map_append, List.map_append, hmap, hothers]

end

theorem generate_eq (request : Request) :
    (g.generate request).failure =
      (g.firstObstacle? request.tree [] request.annotated).map
        (fun found => .inFile found.1.file.name found.2) ∧
    (g.generate request).artifacts.map .ok =
      (kept request.annotated (g.firstObstacle? request.tree [] request.annotated)).map
        (g.artifactOf request.tree) :=
  g.generateFiles_eq request.tree (fun _ => Iff.rfl) 0 request.files

/-- A run ends in one of two ways. Without an obstacle the response carries an artifact for each
annotated message and no failure. Otherwise the first obstacle is reported with the name of its
file, and the artifacts are those of the messages in the files positioned before. -/
theorem generate_fail_fast (request : Request) :
    ((∀ i, g.obstacle? request i = none) ∧
      (g.generate request).response.failure = none ∧
      (g.generate request).response.artifacts.map .ok =
        request.annotated.map (g.artifactOf request.tree)) ∨
    ∃ j a failure, IsLeast {i | (g.obstacle? request i).isSome} j ∧
      request.annotated[j]? = some a ∧ g.obstacle? request j = some failure ∧
      (g.generate request).response.failure =
        some ("Failed to convert " ++ a.file.name ++ ": " ++ failure.message) ∧
      (g.generate request).response.artifacts.map .ok =
        (request.annotated.filter (·.position < a.position)).map (g.artifactOf request.tree) := by
  obtain ⟨hfailure, hartifacts⟩ := g.generate_eq request
  have hresponse : (g.generate request).response.failure =
      (g.generate request).failure.map (·.message) := rfl
  cases hfirst : g.firstObstacle? request.tree [] request.annotated with
  | none =>
    left
    rw [hfirst] at hfailure hartifacts
    refine ⟨fun i => ?_, by rw [hresponse, hfailure]; rfl, hartifacts⟩
    exact g.free_of_firstObstacle?_eq_none request.tree hfirst i
  | some found =>
    right
    obtain ⟨a, failure⟩ := found
    rw [hfirst] at hfailure hartifacts
    obtain ⟨j, ha, hobstacle, hbefore⟩ := g.exists_index_of_firstObstacle? request.tree hfirst
    have hj : g.obstacle? request j = some failure := by
      rw [obstacle?, ha]
      exact hobstacle
    refine ⟨j, a, failure, ⟨by simp [hj], fun i hi => ?_⟩, ha, hj,
      by rw [hresponse, hfailure]; rfl, hartifacts⟩
    by_contra hlt
    have hnone : g.obstacle? request i = none := hbefore i (Nat.lt_of_not_le hlt)
    simp [hnone] at hi

end Generator

end TopicPlugin
