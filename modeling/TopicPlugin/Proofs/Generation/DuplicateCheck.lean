import TopicPlugin.Proofs.Generation.ArtifactNames
import TopicPlugin.Proofs.Generation.Success

/-!
# The check for duplicate artifacts

A traced run is the run of a generator that also writes down, for each annotated message it comes
to, whether the name of its artifact was taken. Tracing changes nothing in the run. Its checks
follow the work from the start, and without slashes in packages they reject exactly the messages
with the topic and the package of an earlier one. Which extension the names carry is of no
consequence, and the artifacts of a run never share a name.
-/

namespace TopicPlugin

open Dotted

/-- An annotated message that a run has come to, and whether its name was taken. -/
structure Check where
  annotated : Annotated
  rejected : Bool

namespace Generator

/-- The artifacts for messages of a file, with the checks made on the way. -/
def tracedMessages (g : Generator) (t : Namespace.Tree Message) (file : File) (position : Nat)
    (taken : List String) : List Message → List Check × Except Failure (List Artifact)
  | [] => ([], .ok [])
  | message :: messages =>
    match message.topic? with
    | none => g.tracedMessages t file position taken messages
    | some topic =>
      let name := g.nameFor file topic
      if name ∈ taken then
        ([⟨⟨position, file, message, topic⟩, true⟩], .error (.duplicateArtifact name message.name))
      else
        match g.formatter ⟨file, message, topic, file.scope t, t⟩ with
        | .error failure => ([⟨⟨position, file, message, topic⟩, false⟩], .error failure)
        | .ok content =>
          let others := g.tracedMessages t file position (name :: taken) messages
          (⟨⟨position, file, message, topic⟩, false⟩ :: others.1,
            others.2.map (⟨name, content⟩ :: ·))

/-- Goes through files from a position on, up to the first target that fails. -/
def tracedFiles (g : Generator) (request : Request) (t : Namespace.Tree Message)
    (taken : List String) (position : Nat) : List File → List Check × Generated
  | [] => ([], {})
  | file :: files =>
    if request.isTarget file then
      match g.tracedMessages t file position taken file.messages with
      | (checks, .error failure) => (checks, { failure := some (.inFile file.name failure) })
      | (checks, .ok artifacts) =>
        let others := g.tracedFiles request t (artifacts.map (·.name) ++ taken) (position + 1) files
        (checks ++ others.1, { others.2 with artifacts := artifacts ++ others.2.artifacts })
    else g.tracedFiles request t taken (position + 1) files

def traced (g : Generator) (request : Request) : List Check × Generated :=
  g.tracedFiles request request.tree [] 0 request.files

def checks (g : Generator) (request : Request) : List Check := (g.traced request).1

variable (g : Generator) (t : Namespace.Tree Message)

theorem tracedMessages_snd (file : File) (position : Nat) (taken : List String)
    (messages : List Message) :
    (g.tracedMessages t file position taken messages).2 =
      g.messageArtifacts t file taken messages := by
  induction messages generalizing taken with
  | nil => rfl
  | cons message messages ih =>
    rw [tracedMessages, messageArtifacts]
    cases message.topic? with
    | none => exact ih taken
    | some topic =>
      change Prod.snd (if g.nameFor file topic ∈ taken then _ else _) =
        if g.nameFor file topic ∈ taken then _ else _
      by_cases hin : g.nameFor file topic ∈ taken
      · rw [if_pos hin, if_pos hin]
      · rw [if_neg hin, if_neg hin]
        cases g.formatter ⟨file, message, topic, file.scope t, t⟩ with
        | error failure => rfl
        | ok content =>
          change Except.map _ (g.tracedMessages t file position _ messages).2 = _
          rw [ih]
          cases g.messageArtifacts t file (g.nameFor file topic :: taken) messages <;> rfl

theorem tracedFiles_snd (request : Request) (taken : List String) (position : Nat)
    (files : List File) :
    (g.tracedFiles request t taken position files).2 =
      g.generateFiles t taken (files.filter request.isTarget) := by
  induction files generalizing taken position with
  | nil => rfl
  | cons file files ih =>
    rw [tracedFiles]
    cases htarget : request.isTarget file with
    | false =>
      rw [if_neg Bool.false_ne_true, List.filter_cons_of_neg (by simp [htarget])]
      exact ih taken (position + 1)
    | true =>
      rw [if_pos rfl, List.filter_cons_of_pos htarget, generateFiles, fileArtifacts,
        ← g.tracedMessages_snd t file position taken file.messages]
      cases g.tracedMessages t file position taken file.messages with
      | mk checks made =>
        cases made with
        | error failure => rfl
        | ok artifacts => simp only [ih]

/-- Tracing leaves a run as it is. -/
theorem traced_snd (request : Request) : (g.traced request).2 = g.generate request :=
  g.tracedFiles_snd request.tree request [] 0 request.files

/-- The checks of some work up to the first obstacle. -/
def checksAmong (used : List String) : List Annotated → List Check
  | [] => []
  | a :: rest =>
    ⟨a, decide (g.nameOf a ∈ used)⟩ ::
      match g.obstacleAmong? t used a with
      | some _ => []
      | none => checksAmong (used ++ [g.nameOf a]) rest

section

variable {used : List String} {a : Annotated}

theorem checksAmong_of_obstacle {failure : Failure}
    (h : g.obstacleAmong? t used a = some failure) (rest : List Annotated) :
    g.checksAmong t used (a :: rest) = [⟨a, decide (g.nameOf a ∈ used)⟩] := by
  rw [checksAmong, h]

theorem checksAmong_of_free (h : g.obstacleAmong? t used a = none) (rest : List Annotated) :
    g.checksAmong t used (a :: rest) =
      ⟨a, false⟩ :: g.checksAmong t (used ++ [g.nameOf a]) rest := by
  have hnew : g.nameOf a ∉ used := by
    intro hin
    rw [obstacleAmong?, if_pos hin] at h
    cases h
  rw [checksAmong, h, decide_eq_false hnew]

end

theorem checksAmong_append (used : List String) (left right : List Annotated) :
    g.checksAmong t used (left ++ right) =
      g.checksAmong t used left ++
        match g.firstObstacle? t used left with
        | some _ => []
        | none => g.checksAmong t (used ++ left.map g.nameOf) right := by
  induction left generalizing used with
  | nil => simp [checksAmong, firstObstacle?]
  | cons a left ih =>
    rw [List.cons_append]
    cases ha : g.obstacleAmong? t used a with
    | some failure =>
      rw [g.checksAmong_of_obstacle t ha, g.checksAmong_of_obstacle t ha,
        g.firstObstacle?_of_obstacle t ha, List.append_nil]
    | none =>
      rw [g.checksAmong_of_free t ha, g.checksAmong_of_free t ha, g.firstObstacle?_of_free t ha,
        ih, List.map_cons, List.append_assoc, List.singleton_append, List.cons_append]

theorem tracedMessages_fst {taken used : List String} (h : ∀ name, name ∈ taken ↔ name ∈ used)
    (file : File) (position : Nat) (messages : List Message) :
    (g.tracedMessages t file position taken messages).1 =
      g.checksAmong t used (file.annotatedIn position messages) := by
  induction messages generalizing taken used with
  | nil => rfl
  | cons message messages ih =>
    rw [tracedMessages]
    cases ht : message.topic? with
    | none =>
      rw [annotatedIn_of_none ht]
      exact ih h
    | some topic =>
      rw [annotatedIn_of_some ht]
      change Prod.fst (if g.nameFor file topic ∈ taken then _ else _) = _
      have hname : g.nameFor file topic ∈ taken ↔
          g.nameOf ⟨position, file, message, topic⟩ ∈ used := h _
      by_cases hin : g.nameFor file topic ∈ taken
      · have hused := hname.mp hin
        rw [if_pos hin, g.checksAmong_of_obstacle t (if_pos hused), decide_eq_true hused]
      · have hused := hin ∘ hname.mpr
        rw [if_neg hin]
        cases hf : g.formatter ⟨file, message, topic, file.scope t, t⟩ with
        | error failure =>
          have hobstacle : g.obstacleAmong? t used ⟨position, file, message, topic⟩ =
              some failure := by
            rw [obstacleAmong?, if_neg hused, Annotated.context, hf]
          rw [g.checksAmong_of_obstacle t hobstacle, decide_eq_false hused]
        | ok content =>
          have hfree : g.obstacleAmong? t used ⟨position, file, message, topic⟩ = none := by
            rw [obstacleAmong?, if_neg hused, Annotated.context, hf]
          rw [g.checksAmong_of_free t hfree]
          -- The run puts a new name in front and the work puts it last; only membership counts.
          refine congrArg (_ :: ·) (ih fun name => ?_)
          rw [List.mem_cons, List.mem_append, List.mem_singleton, h, or_comm]
          rfl

theorem tracedFiles_fst {request : Request} {taken used : List String}
    (h : ∀ name, name ∈ taken ↔ name ∈ used) (position : Nat) (files : List File) :
    (g.tracedFiles request t taken position files).1 =
      g.checksAmong t used (request.annotatedFrom position files) := by
  induction files generalizing taken used position with
  | nil => rfl
  | cons file files ih =>
    rw [tracedFiles]
    cases htarget : request.isTarget file with
    | false =>
      rw [if_neg Bool.false_ne_true, annotatedFrom_of_not_target htarget]
      exact ih h (position + 1)
    | true =>
      have hchecks := g.tracedMessages_fst t h file position file.messages
      have hmade := g.tracedMessages_snd t file position taken file.messages
      obtain ⟨herror, hok⟩ := g.messageArtifacts_eq t h file position file.messages
      rw [if_pos rfl, annotatedFrom_of_target htarget, checksAmong_append, ← hchecks]
      generalize g.tracedMessages t file position taken file.messages = run at hmade
      cases hfirst : g.firstObstacle? t used (file.annotatedIn position file.messages) with
      | some found =>
        obtain ⟨checks, made⟩ := run
        obtain rfl : made = .error found.2 := hmade.trans (herror found.1 found.2 hfirst)
        exact (List.append_nil checks).symm
      | none =>
        obtain ⟨artifacts, hartifacts, hmap⟩ := hok hfirst
        obtain ⟨checks, made⟩ := run
        obtain rfl : made = .ok artifacts := hmade.trans hartifacts
        exact congrArg (checks ++ ·) (ih (g.mem_names_iff_of_artifacts t h hmap) (position + 1))

/-- The checks of a run are those of its work. -/
theorem checks_eq (request : Request) :
    g.checks request = g.checksAmong request.tree [] request.annotated :=
  g.tracedFiles_fst request.tree (fun _ => Iff.rfl) 0 request.files

/-- The checks follow the work from its start. -/
theorem annotated_checksAmong (used : List String) (work : List Annotated) :
    (g.checksAmong t used work).map (·.annotated) <+: work := by
  induction work generalizing used with
  | nil => exact List.prefix_rfl
  | cons a rest ih =>
    cases ha : g.obstacleAmong? t used a with
    | some failure =>
      rw [g.checksAmong_of_obstacle t ha]
      exact ⟨rest, rfl⟩
    | none =>
      rw [g.checksAmong_of_free t ha]
      exact (List.prefix_cons_inj a).mpr (ih _)

/-- A check rejects a message if its name was used before the run or by an earlier check. -/
theorem rejected_iff {used : List String} {work : List Annotated} {i : Nat} {check : Check}
    (h : (g.checksAmong t used work)[i]? = some check) :
    check.rejected = true ↔ g.nameOf check.annotated ∈ used ∨
      ∃ earlier ∈ (g.checksAmong t used work).take i,
        g.nameOf earlier.annotated = g.nameOf check.annotated := by
  induction work generalizing used i with
  | nil => cases h
  | cons a rest ih =>
    cases i with
    | zero =>
      obtain rfl : ⟨a, decide (g.nameOf a ∈ used)⟩ = check := Option.some.inj h
      simp
    | succ i =>
      cases ha : g.obstacleAmong? t used a with
      | some failure =>
        rw [g.checksAmong_of_obstacle t ha] at h
        cases h
      | none =>
        rw [g.checksAmong_of_free t ha] at h ⊢
        rw [ih h, List.take_succ_cons, List.mem_append, List.mem_singleton, or_assoc]
        simp only [List.mem_cons, exists_eq_or_imp, eq_comm]

/-- A rejected message is the first obstacle of the work. -/
theorem firstObstacle?_of_rejected {used : List String} {work : List Annotated} {check : Check}
    (h : check ∈ g.checksAmong t used work) (hrejected : check.rejected = true) :
    g.firstObstacle? t used work = some (check.annotated,
      .duplicateArtifact (g.nameOf check.annotated) check.annotated.message.name) := by
  induction work generalizing used with
  | nil => cases h
  | cons a rest ih =>
    cases ha : g.obstacleAmong? t used a with
    | some failure =>
      rw [g.checksAmong_of_obstacle t ha, List.mem_singleton] at h
      subst h
      have hused : g.nameOf a ∈ used := of_decide_eq_true hrejected
      exact g.firstObstacle?_of_obstacle t (if_pos hused) rest
    | none =>
      rw [g.checksAmong_of_free t ha, List.mem_cons] at h
      rcases h with rfl | h
      · cases hrejected
      · rw [g.firstObstacle?_of_free t ha]
        exact ih h

/-- The same generator with another extension for its artifacts. -/
def withExtension (extension : String) : Generator :=
  { g with settings := { g.settings with extension := extension } }

/-- Generators with one formatter make the same checks if their names tell the same messages
apart. -/
theorem checksAmong_congr (other : Generator) (before : List Annotated)
    (hformatter : other.formatter = g.formatter) {work : List Annotated}
    (hnames : ∀ a ∈ before ++ work, ∀ b ∈ before ++ work,
      other.nameOf a = other.nameOf b ↔ g.nameOf a = g.nameOf b) :
    other.checksAmong t (before.map other.nameOf) work =
      g.checksAmong t (before.map g.nameOf) work := by
  induction work generalizing before with
  | nil => rfl
  | cons a rest ih =>
    have hused : other.nameOf a ∈ before.map other.nameOf ↔ g.nameOf a ∈ before.map g.nameOf := by
      rw [List.mem_map, List.mem_map]
      refine exists_congr fun b => and_congr_right fun hb => ?_
      exact hnames b (List.mem_append_left _ hb) a (by simp)
    have hrest : other.checksAmong t (before.map other.nameOf ++ [other.nameOf a]) rest =
        g.checksAmong t (before.map g.nameOf ++ [g.nameOf a]) rest := by
      have hnext := ih (before ++ [a]) (by simpa using hnames)
      rwa [List.map_append, List.map_append] at hnext
    rw [checksAmong, checksAmong, obstacleAmong?, obstacleAmong?, hformatter, hrest,
      decide_eq_decide.mpr hused]
    by_cases hin : g.nameOf a ∈ before.map g.nameOf
    · rw [if_pos hin, if_pos (hused.mpr hin)]
    · rw [if_neg hin, if_neg (hin ∘ hused.mp)]

/-- The names of the artifacts of a file are new, and no two of them are the same. -/
theorem names_of_messageArtifacts {file : File} {taken : List String} {messages : List Message}
    {artifacts : List Artifact} (h : g.messageArtifacts t file taken messages = .ok artifacts) :
    (artifacts.map (·.name)).Nodup ∧ ∀ name ∈ artifacts.map (·.name), name ∉ taken := by
  have htaken : ∀ name, name ∈ taken ↔ name ∈ taken := fun _ => Iff.rfl
  obtain ⟨herror, hok⟩ := g.messageArtifacts_eq t htaken file 0 messages
  cases hfirst : g.firstObstacle? t taken (file.annotatedIn 0 messages) with
  | some found =>
    rw [herror found.1 found.2 hfirst] at h
    cases h
  | none =>
    obtain ⟨made, hmade, hmap⟩ := hok hfirst
    obtain rfl : made = artifacts := Except.ok.inj (hmade.symm.trans h)
    obtain ⟨hnew, hfree⟩ := (firstObstacle?_eq_none_iff t taken _).mp hfirst
    rw [g.names_of_artifacts t hmap]
    refine ⟨hfree.nodup_names, fun name hname => ?_⟩
    obtain ⟨a, ha, rfl⟩ := List.mem_map.mp hname
    exact hnew a ha

theorem names_of_generateFiles (taken : List String) (files : List File) :
    ((g.generateFiles t taken files).artifacts.map (·.name)).Nodup ∧
      ∀ name ∈ (g.generateFiles t taken files).artifacts.map (·.name), name ∉ taken := by
  induction files generalizing taken with
  | nil => exact ⟨List.nodup_nil, by simp [generateFiles]⟩
  | cons file files ih =>
    cases hmade : g.fileArtifacts t taken file with
    | error failure =>
      rw [g.generateFiles_of_error t hmade]
      exact ⟨List.nodup_nil, by simp⟩
    | ok artifacts =>
      obtain ⟨hnodup, hnew⟩ := g.names_of_messageArtifacts t hmade
      obtain ⟨hothers, hlater⟩ := ih (artifacts.map (·.name) ++ taken)
      rw [g.generateFiles_of_ok t hmade, List.map_append]
      constructor
      · refine List.nodup_append.mpr ⟨hnodup, hothers, fun name hname other hother he => ?_⟩
        exact hlater other hother (List.mem_append_left _ (he ▸ hname))
      · intro name hname
        rcases List.mem_append.mp hname with hfirst | hother
        · exact hnew name hfirst
        · exact fun hin => hlater name hother (List.mem_append_right _ hin)

theorem file_mem_of_mem_annotated {request : Request} {a : Annotated}
    (h : a ∈ request.annotated) : a.file ∈ request.files :=
  List.mem_of_getElem? (of_mem_annotated h).1

/-- The artifacts of a run have different names. If no package has a slash in it, the check for
duplicates rejects a message that a run comes to exactly if an earlier one is for the same topic in
the same package; the run reports it then, and the extension makes no difference to any of this. -/
theorem duplicate_check_exact {request : Request}
    (hslash : ∀ file ∈ request.files, ∀ package ∈ file.package, '/' ∉ package.toList) :
    ((g.generate request).response.artifacts.map (·.name)).Nodup ∧
    (g.traced request).2 = g.generate request ∧
    (g.checks request).map (·.annotated) <+: request.annotated ∧
    (∀ i check, (g.checks request)[i]? = some check →
      (check.rejected = true ↔
        ∃ earlier ∈ (g.checks request).take i, earlier.annotated.SameTarget check.annotated)) ∧
    (∀ check ∈ g.checks request, check.rejected = true →
      (g.generate request).failure = some (.inFile check.annotated.file.name
        (.duplicateArtifact (g.nameOf check.annotated) check.annotated.message.name))) ∧
    ∀ extension, (g.withExtension extension).checks request = g.checks request := by
  have hbare : ∀ a ∈ request.annotated, ∀ package ∈ a.file.package, '/' ∉ package.toList :=
    fun a ha => hslash a.file (file_mem_of_mem_annotated ha)
  have hfollow := g.annotated_checksAmong request.tree [] request.annotated
  have hcome : ∀ check ∈ g.checks request, check.annotated ∈ request.annotated := by
    intro check hcheck
    rw [checks_eq] at hcheck
    exact hfollow.subset (List.mem_map_of_mem hcheck)
  refine ⟨(g.names_of_generateFiles request.tree [] request.targetFiles).1, g.traced_snd request,
    ?_, fun i check hcheck => ?_, fun check hcheck hrejected => ?_, fun extension => ?_⟩
  · rw [checks_eq]
    exact hfollow
  · have hin := hcome check (List.mem_of_getElem? hcheck)
    rw [checks_eq] at hcheck
    rw [g.rejected_iff request.tree hcheck, ← checks_eq]
    simp only [List.not_mem_nil, false_or]
    refine exists_congr fun earlier => and_congr_right fun hearlier => ?_
    exact g.nameOf_eq_iff (hbare _ (hcome earlier (List.mem_of_mem_take hearlier))) (hbare _ hin)
  · rw [checks_eq] at hcheck
    rw [(g.generate_eq request).1, g.firstObstacle?_of_rejected request.tree hcheck hrejected]
    rfl
  · have hnames : ∀ a ∈ request.annotated, ∀ b ∈ request.annotated,
        (g.withExtension extension).nameOf a = (g.withExtension extension).nameOf b ↔
          g.nameOf a = g.nameOf b := by
      intro a ha b hb
      rw [nameOf_eq_iff _ (hbare a ha) (hbare b hb), nameOf_eq_iff _ (hbare a ha) (hbare b hb)]
    rw [checks_eq, checks_eq]
    exact g.checksAmong_congr request.tree (g.withExtension extension) [] rfl hnames

/-- Two files for one topic, the package of the second with a dot in front. -/
def leadingDotRequest : Request where
  targets := ["orders.proto", "dotted.proto"]
  files := [
    { name := "orders.proto", package := some "shop.orders", messages := [{
        name := "Order", options := some ⟨some ⟨some "order.v1"⟩⟩ }] },
    { name := "dotted.proto", package := some ".shop.orders", messages := [{
        name := "DottedOrder", options := some ⟨some ⟨some "order.v1"⟩⟩ }] }]

/-- The message of the second file is rejected, with any extension. -/
theorem duplicate_check_exact_leading_dot :
    (∀ file ∈ leadingDotRequest.files, ∀ package ∈ file.package, '/' ∉ package.toList) ∧
    ∀ extension, ((withExtension ⟨{}, .placeholder⟩ extension).checks leadingDotRequest).map
      (fun check => (check.annotated.message.name, check.rejected)) =
        [("Order", false), ("DottedOrder", true)] := by
  have hslash : ∀ file ∈ leadingDotRequest.files, ∀ package ∈ file.package,
      '/' ∉ package.toList := by
    decide
  obtain ⟨-, -, -, -, -, hextension⟩ := duplicate_check_exact ⟨{}, .placeholder⟩ hslash
  refine ⟨hslash, fun extension => ?_⟩
  rw [hextension extension]
  decide +kernel

end Generator

end TopicPlugin
