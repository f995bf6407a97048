import TopicPlugin.Proofs.Generation.Success
import TopicPlugin.Proofs.Namespace.RegistrationOrder

/-!
# The order of the files of a request

Formatters that write what namespaces are, and not what their indices are, make runs that the order
of the files shows in only through the order of the targets. If the targets keep theirs, the
response is the same, with the text of its failure. If they do not, a run that made all artifacts
still does, in blocks that follow the files. All of this needs that no two top-level messages share
a namespace and a name, since of two such messages the one registered last counts.
-/

namespace TopicPlugin

open Namespace Namespace.Tree

/-- A formatter writes the same for a namespace under any index. -/
def Formatter.IgnoresIndices (formatter : Formatter) : Prop :=
  ∀ {t t' : Namespace.Tree Message} {same : Nat → Nat → Prop}, Renumbering t t' same →
    ∀ (file : File) (message : Message) (topic : Topic) {scope scope' : Nat}, same scope scope' →
      formatter ⟨file, message, topic, scope, t⟩ = formatter ⟨file, message, topic, scope', t'⟩

theorem Formatter.ignoresIndices_placeholder : Formatter.placeholder.IgnoresIndices :=
  fun _ _ _ _ _ _ _ => rfl

namespace Schema

section

variable {t t' : Namespace.Tree Message} {same : Nat → Nat → Prop} (h : Renumbering t t' same)
  (file : File) (message : Message) (topic : Topic) {scope scope' : Nat} (hid : same scope scope')

include h hid

theorem qualifiedName_eq :
    Context.qualifiedName ⟨file, message, topic, scope, t⟩ =
      Context.qualifiedName ⟨file, message, topic, scope', t'⟩ := by
  rw [Context.qualifiedName, Context.qualifiedName, h.name_eq hid]

theorem fieldType_eq (field : Field) :
    fieldType ⟨file, message, topic, scope, t⟩ field =
      fieldType ⟨file, message, topic, scope', t'⟩ field := by
  have hname := qualifiedName_eq h file message topic hid
  unfold fieldType
  rw [hname]
  simp only [h.resolveWithin_eq hid]

theorem ofField_eq :
    ofField ⟨file, message, topic, scope, t⟩ = ofField ⟨file, message, topic, scope', t'⟩ := by
  funext field
  rw [ofField, ofField, fieldType_eq h file message topic hid]

theorem ofContext_eq :
    ofContext ⟨file, message, topic, scope, t⟩ = ofContext ⟨file, message, topic, scope', t'⟩ := by
  rw [ofContext, ofContext, ofField_eq h file message topic hid,
    qualifiedName_eq h file message topic hid]

end

end Schema

theorem Formatter.ignoresIndices_schema : Formatter.schema.IgnoresIndices := by
  intro t t' same h file message topic scope scope' hid
  rw [Formatter.schema, Formatter.schema, Schema.ofContext_eq h file message topic hid]

theorem File.scope_same {t t' : Namespace.Tree Message} {same : Nat → Nat → Prop}
    (h : Renumbering t t' same) (file : File) : same (file.scope t) (file.scope t') := by
  rw [File.scope, File.scope]
  cases file.package with
  | none => exact h.root_same
  | some package =>
    rw [Option.bind_some, Option.bind_some]
    rcases cases_of_rel (h.package?_same package) with ⟨hp, hp'⟩ | ⟨id, id', hp, hp', hsame⟩
    · rw [hp, hp']
      exact h.root_same
    · rw [hp, hp']
      exact hsame

namespace Generator

variable {g : Generator}

section

variable (hg : g.formatter.IgnoresIndices) {t t' : Namespace.Tree Message}
  {same : Nat → Nat → Prop} (h : Renumbering t t' same)

include hg h

theorem format_eq (file : File) (message : Message) (topic : Topic) :
    g.formatter ⟨file, message, topic, file.scope t, t⟩ =
      g.formatter ⟨file, message, topic, file.scope t', t'⟩ :=
  hg h file message topic (file.scope_same h)

theorem artifactOf_eq (a : Annotated) : g.artifactOf t a = g.artifactOf t' a := by
  rw [artifactOf, artifactOf, Annotated.context, Annotated.context, format_eq hg h]

theorem messageArtifacts_renumbered (file : File) (taken : List String)
    (messages : List Message) :
    g.messageArtifacts t file taken messages = g.messageArtifacts t' file taken messages := by
  induction messages generalizing taken with
  | nil => rfl
  | cons message messages ih =>
    rw [messageArtifacts, messageArtifacts]
    cases message.topic? with
    | none => exact ih taken
    | some topic => simp only [format_eq hg h, ih]

theorem generateFiles_renumbered (taken : List String) (files : List File) :
    g.generateFiles t taken files = g.generateFiles t' taken files := by
  induction files generalizing taken with
  | nil => rfl
  | cons file files ih =>
    rw [generateFiles, generateFiles, fileArtifacts, fileArtifacts,
      messageArtifacts_renumbered hg h]
    cases g.messageArtifacts t' file taken file.messages with
    | error failure => rfl
    | ok artifacts => simp only [ih]

theorem unobstructed_renumbered {work : List Annotated} (hfree : g.Unobstructed t work) :
    g.Unobstructed t' work := by
  refine ⟨hfree.nodup_names, fun a ha => ?_⟩
  rw [← artifactOf_eq hg h]
  exact hfree.exists_artifact a ha

theorem block_renumbered : g.block t = g.block t' := by
  funext file
  simp only [block, artifactOf_eq hg h]

end

end Generator

/-- The request with other files, or with its own ones in another order. -/
def Request.withFiles (request : Request) (files : List File) : Request :=
  { request with files := files }

namespace Generator

/-- The order of the files of a request shows through the order of its targets only. If the targets
keep theirs, the response stays as it is. In any case a run that succeeds goes on to do so, and its
artifacts come in the same blocks, one for each target file, in the order of the files. -/
theorem generate_file_order (g : Generator)
    (hg : g.formatter = .schema ∨ g.formatter = .placeholder) {request : Request}
    (hkeys : (request.registrations.map (·.key)).Nodup) {files : List File}
    (hperm : files.Perm request.files) :
    ((request.withFiles files).targetFiles = request.targetFiles →
      (g.generate (request.withFiles files)).response = (g.generate request).response) ∧
    ((g.generate request).response.failure = none →
      (g.generate (request.withFiles files)).response.failure = none ∧
      ∃ block : File → List Artifact,
        (∀ file ∈ request.targetFiles,
          (block file).map .ok = file.annotated.map (g.artifactOf request.tree)) ∧
        (g.generate request).response.artifacts = request.targetFiles.flatMap block ∧
        (g.generate (request.withFiles files)).response.artifacts =
          (request.withFiles files).targetFiles.flatMap block) := by
  have hindices : g.formatter.IgnoresIndices := by
    rcases hg with hg | hg
    · rw [hg]
      exact Formatter.ignoresIndices_schema
    · rw [hg]
      exact Formatter.ignoresIndices_placeholder
  have hregistrations : request.registrations.Perm (request.withFiles files).registrations :=
    hperm.symm.flatMap_right _
  have hsame : Renumbering request.tree (request.withFiles files).tree (SamePath _ _) :=
    renumbering_of_reordering (Reordering.of_nodup hregistrations hkeys)
  have htargets : (request.withFiles files).targetFiles.Perm request.targetFiles :=
    hperm.filter request.isTarget
  constructor
  · intro hkept
    rw [generate, generate, hkept]
    exact congrArg Generated.response (generateFiles_renumbered hindices hsame _ _).symm
  · intro hsuccess
    have hfailure : (g.generate request).failure = none := Option.map_eq_none_iff.mp hsuccess
    have hfree := (failure_eq_none_iff request).mp hfailure
    have hfree' : g.Unobstructed (request.withFiles files).tree
        ((request.withFiles files).targetFiles.flatMap (·.annotated)) :=
      unobstructed_renumbered hindices hsame (hfree.of_perm (htargets.flatMap_right _))
    have hfailure' := (failure_eq_none_iff (request.withFiles files)).mpr hfree'
    refine ⟨Option.map_eq_none_iff.mpr hfailure', g.block request.tree,
      fun file hfile => map_ok_block hfree hfile, artifacts_eq_blocks hfailure, ?_⟩
    rw [block_renumbered hindices hsame]
    exact artifacts_eq_blocks hfailure'

/-- Two targets that lead to artifacts of one topic in different packages, and a file that one of
them refers to. -/
def sharedTopicRequest : Request where
  targets := ["derived.proto", "other.proto"]
  files := [
    { name := "base.proto", package := some "p", messages := [{ name := "Base" }] },
    { name := "derived.proto", package := some "p.q", messages := [{
        name := "Derived",
        fields := [{ name := "base", kind := .message, typeName := some "Base" }],
        options := some ⟨some ⟨some "topic"⟩⟩ }] },
    { name := "other.proto", package := some "p", messages := [{
        name := "Other", options := some ⟨some ⟨some "topic"⟩⟩ }] }]

/-- With the other file last the response stays, and with the files reversed it still succeeds. -/
theorem generate_file_order_shared_topic :
    (sharedTopicRequest.registrations.map (·.key)).Nodup ∧
    (generate ⟨{}, .schema⟩ (sharedTopicRequest.withFiles
      (sharedTopicRequest.files.drop 1 ++ sharedTopicRequest.files.take 1))).response =
        (generate ⟨{}, .schema⟩ sharedTopicRequest).response ∧
    (generate ⟨{}, .schema⟩ (sharedTopicRequest.withFiles
      sharedTopicRequest.files.reverse)).response.failure = none := by
  have hkeys : (sharedTopicRequest.registrations.map (·.key)).Nodup := by decide
  have hlast : (sharedTopicRequest.files.drop 1 ++ sharedTopicRequest.files.take 1).Perm
      sharedTopicRequest.files := by
    calc (sharedTopicRequest.files.drop 1 ++ sharedTopicRequest.files.take 1).Perm
          (sharedTopicRequest.files.take 1 ++ sharedTopicRequest.files.drop 1) :=
            List.perm_append_comm
      _ = sharedTopicRequest.files := List.take_append_drop 1 _
  have hsuccess : (generate ⟨{}, .schema⟩ sharedTopicRequest).response.failure = none := by
    decide +kernel
  obtain ⟨hkept, -⟩ := generate_file_order ⟨{}, .schema⟩ (Or.inl rfl) hkeys hlast
  obtain ⟨-, hblocks⟩ := generate_file_order ⟨{}, .schema⟩ (Or.inl rfl) hkeys
    (List.reverse_perm sharedTopicRequest.files)
  obtain ⟨hreversed, -⟩ := hblocks hsuccess
  exact ⟨hkeys, hkept rfl, hreversed⟩

end Generator

end TopicPlugin
