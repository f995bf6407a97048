import TopicPlugin.Proofs.Generation.FailFast

/-!
# Runs that succeed

A run succeeds if the names of its artifacts differ and every formatter call returns. The condition
says nothing about order and nothing about where a file stands. The artifacts of such a run are one
block for each target file, and a block holds those of its annotated messages as they are declared.
-/

namespace TopicPlugin

namespace Generator

variable {g : Generator}

variable (g) in
/-- Some messages can all have their artifacts, in any order. -/
structure Unobstructed (t : Namespace.Tree Message) (work : List Annotated) : Prop where
  nodup_names : (work.map g.nameOf).Nodup
  exists_artifact : ∀ a ∈ work, ∃ artifact, g.artifactOf t a = .ok artifact

theorem obstacleAmong?_eq_none_iff (t : Namespace.Tree Message) (used : List String)
    (a : Annotated) :
    g.obstacleAmong? t used a = none ↔
      g.nameOf a ∉ used ∧ ∃ artifact, g.artifactOf t a = .ok artifact := by
  constructor
  · intro hfree
    refine ⟨fun hin => ?_, g.exists_artifact_of_free t hfree⟩
    rw [obstacleAmong?, if_pos hin] at hfree
    cases hfree
  · rintro ⟨hnew, artifact, hartifact⟩
    rw [obstacleAmong?, if_neg hnew]
    rw [artifactOf] at hartifact
    cases hf : g.formatter (a.context t) with
    | ok content => rfl
    | error failure =>
      rw [hf] at hartifact
      cases hartifact

theorem unobstructed_cons_iff (t : Namespace.Tree Message) (a : Annotated)
    (rest : List Annotated) :
    g.Unobstructed t (a :: rest) ↔
      (∃ artifact, g.artifactOf t a = .ok artifact) ∧ (∀ b ∈ rest, g.nameOf b ≠ g.nameOf a) ∧
        g.Unobstructed t rest := by
  constructor
  · intro h
    obtain ⟨hnew, hnodup⟩ := List.nodup_cons.mp h.nodup_names
    refine ⟨h.exists_artifact a List.mem_cons_self, fun b hb he => ?_, hnodup,
      fun b hb => h.exists_artifact b (List.mem_cons_of_mem a hb)⟩
    exact hnew (he ▸ List.mem_map_of_mem hb)
  · rintro ⟨hartifact, hnew, hrest⟩
    constructor
    · rw [List.map_cons, List.nodup_cons]
      refine ⟨fun hin => ?_, hrest.nodup_names⟩
      obtain ⟨b, hb, he⟩ := List.mem_map.mp hin
      exact hnew b hb he
    · intro b hb
      rcases List.mem_cons.mp hb with rfl | hb
      · exact hartifact
      · exact hrest.exists_artifact b hb

theorem firstObstacle?_eq_none_iff (t : Namespace.Tree Message) (used : List String)
    (work : List Annotated) :
    g.firstObstacle? t used work = none ↔
      (∀ a ∈ work, g.nameOf a ∉ used) ∧ g.Unobstructed t work := by
  induction work generalizing used with
  | nil => exact iff_of_true rfl ⟨by simp, by simp, by simp⟩
  | cons a rest ih =>
    have hstep : g.firstObstacle? t used (a :: rest) = none ↔
        g.obstacleAmong? t used a = none ∧
          g.firstObstacle? t (used ++ [g.nameOf a]) rest = none := by
      cases ha : g.obstacleAmong? t used a with
      | some failure => simp [g.firstObstacle?_of_obstacle t ha]
      | none => simp [g.firstObstacle?_of_free t ha]
    rw [hstep, ih, obstacleAmong?_eq_none_iff, unobstructed_cons_iff]
    simp only [List.mem_append, List.mem_singleton, not_or, List.forall_mem_cons, forall_and]
    tauto

end Generator

/-- The message wherever its file stands. -/
def Annotated.unplaced (a : Annotated) : Annotated := { a with position := 0 }

/-- The annotated messages of a file, wherever it stands. -/
def File.annotated (file : File) : List Annotated := file.annotatedIn 0 file.messages

theorem File.map_unplaced (file : File) (position : Nat) :
    (file.annotatedIn position file.messages).map (·.unplaced) = file.annotated := by
  rw [File.annotated, File.annotatedIn, File.annotatedIn, List.map_filterMap]
  congr 1
  funext message
  rw [Option.map_map]
  rfl

theorem Request.map_unplaced (request : Request) (start : Nat) (files : List File) :
    (request.annotatedFrom start files).map (·.unplaced) =
      (files.filter request.isTarget).flatMap (·.annotated) := by
  induction files generalizing start with
  | nil => rfl
  | cons file files ih =>
    cases htarget : request.isTarget file with
    | false =>
      rw [Generator.annotatedFrom_of_not_target htarget, ih,
        List.filter_cons_of_neg (by simp [htarget])]
    | true =>
      rw [Generator.annotatedFrom_of_target htarget, List.map_append, ih, File.map_unplaced,
        List.filter_cons_of_pos htarget, List.flatMap_cons]

namespace Generator

variable {g : Generator}

section

variable (t : Namespace.Tree Message) (work : List Annotated)

theorem map_artifactOf_unplaced :
    (work.map (·.unplaced)).map (g.artifactOf t) = work.map (g.artifactOf t) := by
  rw [List.map_map]
  rfl

theorem unobstructed_unplaced_iff :
    g.Unobstructed t (work.map (·.unplaced)) ↔ g.Unobstructed t work := by
  have hnames : (work.map (·.unplaced)).map g.nameOf = work.map g.nameOf := by
    rw [List.map_map]
    rfl
  constructor
  · intro h
    refine ⟨hnames ▸ h.nodup_names, fun a ha => ?_⟩
    exact h.exists_artifact a.unplaced (List.mem_map_of_mem ha)
  · intro h
    refine ⟨hnames.symm ▸ h.nodup_names, fun b hb => ?_⟩
    obtain ⟨a, ha, rfl⟩ := List.mem_map.mp hb
    exact h.exists_artifact a ha

end

theorem Unobstructed.of_perm {t : Namespace.Tree Message} {work other : List Annotated}
    (h : g.Unobstructed t work) (hperm : other.Perm work) : g.Unobstructed t other :=
  ⟨(hperm.map g.nameOf).nodup_iff.mpr h.nodup_names,
    fun a ha => h.exists_artifact a (hperm.mem_iff.mp ha)⟩

/-- A run succeeds if nothing stands in the way of the annotated messages of the targets. -/
theorem failure_eq_none_iff (request : Request) :
    (g.generate request).failure = none ↔
      g.Unobstructed request.tree (request.targetFiles.flatMap (·.annotated)) := by
  rw [(g.generate_eq request).1, Option.map_eq_none_iff, firstObstacle?_eq_none_iff,
    ← unobstructed_unplaced_iff, Request.annotated, Request.map_unplaced]
  simp [Request.targetFiles]

/-- The artifacts of a run that succeeds are those of the annotated messages of its targets. -/
theorem artifacts_of_success {request : Request} (h : (g.generate request).failure = none) :
    (g.generate request).artifacts.map .ok =
      (request.targetFiles.flatMap (·.annotated)).map (g.artifactOf request.tree) := by
  obtain ⟨hfailure, hartifacts⟩ := g.generate_eq request
  rw [hfailure, Option.map_eq_none_iff] at h
  rw [hartifacts, h, kept, ← map_artifactOf_unplaced, Request.annotated, Request.map_unplaced]
  rfl

variable (g) in
/-- The artifacts of the annotated messages of a file that can have one. -/
def block (t : Namespace.Tree Message) (file : File) : List Artifact :=
  file.annotated.filterMap fun a => (g.artifactOf t a).toOption

theorem map_ok_block {t : Namespace.Tree Message} {files : List File}
    (h : g.Unobstructed t (files.flatMap (·.annotated))) {file : File} (hfile : file ∈ files) :
    (g.block t file).map .ok = file.annotated.map (g.artifactOf t) := by
  have hmade : ∀ a ∈ file.annotated, ∃ artifact, g.artifactOf t a = .ok artifact :=
    fun a ha => h.exists_artifact a (List.mem_flatMap_of_mem hfile ha)
  rw [block]
  generalize file.annotated = work at hmade
  induction work with
  | nil => rfl
  | cons a rest ih =>
    obtain ⟨artifact, hartifact⟩ := hmade a List.mem_cons_self
    have hrest := ih fun b hb => hmade b (List.mem_cons_of_mem a hb)
    rw [List.filterMap_cons, hartifact, List.map_cons, hartifact]
    exact congrArg (_ :: ·) hrest

/-- A run that succeeds puts the blocks of its target files one behind the other. -/
theorem artifacts_eq_blocks {request : Request} (h : (g.generate request).failure = none) :
    (g.generate request).artifacts = request.targetFiles.flatMap (g.block request.tree) := by
  have hmade := artifacts_of_success h
  have hread := congrArg (List.filterMap Except.toOption) hmade
  rw [List.filterMap_map, List.filterMap_map] at hread
  have hall : (g.generate request).artifacts.filterMap
      (Except.toOption ∘ Except.ok (ε := Failure)) = (g.generate request).artifacts :=
    List.filterMap_some
  rw [hall, List.filterMap_flatMap] at hread
  exact hread

end Generator

end TopicPlugin
