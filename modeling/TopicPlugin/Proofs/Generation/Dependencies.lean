import Mathlib.Data.List.Forall2
import TopicPlugin.Proofs.Generation.SchemaTypes
import TopicPlugin.Proofs.Namespace.Outlines

/-!
# What a run reads of a request

Of the messages that no artifact is made for, a run reads the names only. Two requests that agree in
what is exposed, which is the top-level messages of the targets with their fields and options and
everything else by its outline, get one response, with the text of its failure.
-/

namespace TopicPlugin

open Namespace Namespace.Tree

/-- The message with its own fields and options, and the messages nested in it by their outlines. -/
def Message.surface (m : Message) : Message := { m with nested := m.nested.map outline }

abbrev Message.SameSurface (m m' : Message) : Prop := m.surface = m'.surface

/-- What a run reads of a file of the request. -/
def Request.exposed (request : Request) (file : File) : File :=
  { file with
    messages := file.messages.map
      (if request.isTarget file then Message.surface else Message.outline) }

/-- Requests with the same set of targets, the same parameter, and the same files as far as they are
exposed. -/
structure Request.SameExposed (request other : Request) : Prop where
  mem_targets_iff : ∀ name, name ∈ request.targets ↔ name ∈ other.targets
  parameter_eq : request.parameter = other.parameter
  files_eq : request.files.map request.exposed = other.files.map other.exposed

namespace Message

theorem sameSurface_iff {m m' : Message} :
    m.SameSurface m' ↔ m.name = m'.name ∧ m.fields = m'.fields ∧
      m.nested.map outline = m'.nested.map outline ∧ m.options = m'.options := by
  rw [SameSurface, surface, surface, mk.injEq]

theorem outline_of_surface {m m' : Message} (h : m.SameSurface m') :
    m.SameOutline m' := by
  obtain ⟨hname, -, hnested, -⟩ := sameSurface_iff.mp h
  rw [SameOutline, outline_eq, outline_eq m', hname, hnested]

theorem topic?_of_surface {m m' : Message} (h : m.SameSurface m') : m.topic? = m'.topic? := by
  obtain ⟨-, -, -, hoptions⟩ := sameSurface_iff.mp h
  rw [topic?, topic?, writtenTopic?, writtenTopic?, hoptions]

end Message

theorem forall₂_of_map_eq {β γ : Type} {f : β → γ} {as bs : List β} (h : as.map f = bs.map f) :
    List.Forall₂ (fun a b => f a = f b) as bs := by
  rw [← List.forall₂_eq_eq_eq, List.forall₂_map_left_iff, List.forall₂_map_right_iff] at h
  exact h

/-- Files of one name and one package, with the same outlines, and with the same surfaces if they
are targets. -/
structure File.Alike (target : Bool) (file file' : File) : Prop where
  name_eq : file.name = file'.name
  package_eq : file.package = file'.package
  outlines : List.Forall₂ Message.SameOutline file.messages file'.messages
  surfaces : target = true →
    List.Forall₂ Message.SameSurface file.messages file'.messages

section

variable {request other : Request} (h : request.SameExposed other)

include h

theorem isTarget_eq_of_name {file file' : File} (hname : file.name = file'.name) :
    request.isTarget file = other.isTarget file' := by
  rw [Request.isTarget, Request.isTarget, hname, Bool.eq_iff_iff, List.contains_iff_mem,
    List.contains_iff_mem]
  exact h.mem_targets_iff file'.name

theorem alike_of_exposed {file file' : File} (hfile : request.exposed file = other.exposed file') :
    File.Alike (request.isTarget file) file file' := by
  rw [Request.exposed, Request.exposed, File.mk.injEq] at hfile
  obtain ⟨hname, hpackage, hmessages⟩ := hfile
  rw [← isTarget_eq_of_name h hname] at hmessages
  have hsame := forall₂_of_map_eq hmessages
  refine ⟨hname, hpackage, ?_, fun htarget => ?_⟩
  · cases htarget : request.isTarget file with
    | true =>
      rw [htarget] at hsame
      exact hsame.imp fun _ _ hsurface => Message.outline_of_surface hsurface
    | false =>
      rw [htarget] at hsame
      exact hsame
  · rw [htarget] at hsame
    exact hsame

theorem forall₂_alike :
    List.Forall₂ (fun file file' => File.Alike (request.isTarget file) file file') request.files
      other.files := by
  have hfiles := h.files_eq
  rw [← List.forall₂_eq_eq_eq, List.forall₂_map_left_iff, List.forall₂_map_right_iff] at hfiles
  exact hfiles.imp fun _ _ hfile => alike_of_exposed h hfile

/-- The trees agree in all that look-ups read. -/
theorem alike_tree : Alike Message.SameOutline request.tree other.tree := by
  refine alike_ofRegistrations ?_
  rw [Request.registrations, Request.registrations]
  refine List.rel_flatMap (forall₂_alike h) fun file file' hfile => ?_
  rw [List.forall₂_map_left_iff, List.forall₂_map_right_iff]
  refine hfile.outlines.imp fun m m' hm => ⟨hfile.package_eq, ?_, hm⟩
  change m.name = m'.name
  rw [← m.name_outline, hm, m'.name_outline]

end

/-- A formatter writes the same for messages of one surface in trees that look-ups agree on. -/
def Formatter.ReadsExposed (formatter : Formatter) : Prop :=
  ∀ {t t' : Namespace.Tree Message}, Alike Message.SameOutline t t' →
    ∀ (file file' : File) {m m' : Message}, m.SameSurface m' →
      ∀ (topic : Topic) (scope : Nat),
        formatter ⟨file, m, topic, scope, t⟩ = formatter ⟨file', m', topic, scope, t'⟩

theorem Formatter.readsExposed_placeholder : Formatter.placeholder.ReadsExposed :=
  fun _ _ _ _ _ _ _ _ => rfl

namespace Schema

section

variable {t t' : Namespace.Tree Message} (h : Alike Message.SameOutline t t')
  (file file' : File) {m m' : Message} (hm : m.SameSurface m') (topic : Topic) (scope : Nat)

include h hm

theorem qualifiedName_of_alike :
    Context.qualifiedName ⟨file, m, topic, scope, t⟩ =
      Context.qualifiedName ⟨file', m', topic, scope, t'⟩ := by
  obtain ⟨hname, -⟩ := Message.sameSurface_iff.mp hm
  rw [Context.qualifiedName, Context.qualifiedName, h.name_eq, hname]

theorem name_target?_of_alike (field : Field) :
    (target? ⟨file, m, topic, scope, t⟩ field).map (·.name) =
      (target? ⟨file', m', topic, scope, t'⟩ field).map (·.name) := by
  rw [target?, target?, qualifiedName_of_alike h file file' hm topic scope]
  exact h.name_resolveWithin (Message.outline_of_surface hm) scope _ _

theorem fieldType_of_alike (field : Field) :
    fieldType ⟨file, m, topic, scope, t⟩ field =
      fieldType ⟨file', m', topic, scope, t'⟩ field := by
  have hname := qualifiedName_of_alike h file file' hm topic scope
  by_cases hkind : field.kind.refersToMessage = true
  · rw [fieldType_of_refersToMessage hkind, fieldType_of_refersToMessage hkind, hname,
      name_target?_of_alike h file file' hm topic scope]
  · exact fieldType_of_not_refersToMessage hkind hname

theorem ofContext_of_alike :
    ofContext ⟨file, m, topic, scope, t⟩ = ofContext ⟨file', m', topic, scope, t'⟩ := by
  obtain ⟨-, hfields, -⟩ := Message.sameSurface_iff.mp hm
  have hfield : ofField ⟨file, m, topic, scope, t⟩ = ofField ⟨file', m', topic, scope, t'⟩ := by
    funext field
    rw [ofField, ofField, fieldType_of_alike h file file' hm]
  rw [ofContext, ofContext, hfield, qualifiedName_of_alike h file file' hm, hfields]

end

end Schema

theorem Formatter.readsExposed_schema : Formatter.schema.ReadsExposed := by
  intro t t' h file file' m m' hm topic scope
  rw [Formatter.schema, Formatter.schema, Schema.ofContext_of_alike h file file' hm]

theorem Formatter.readsExposed_ofSettings (settings : Settings) :
    (Generator.ofSettings settings).formatter.ReadsExposed := by
  unfold Generator.ofSettings
  cases settings.content with
  | schema => exact readsExposed_schema
  | placeholder => exact readsExposed_placeholder

namespace Generator

section

variable {g : Generator} (hg : g.formatter.ReadsExposed) {t t' : Namespace.Tree Message}
  (h : Namespace.Tree.Alike Message.SameOutline t t')

include hg h

theorem messageArtifacts_of_alike {file file' : File} (hpackage : file.package = file'.package)
    {messages messages' : List Message}
    (hmessages : List.Forall₂ Message.SameSurface messages messages')
    (taken : List String) :
    g.messageArtifacts t file taken messages = g.messageArtifacts t' file' taken messages' := by
  have hscope : file.scope t = file'.scope t' := by
    have hfind : t.package? = t'.package? := by
      funext package
      exact h.find?_eq (Dotted.packageSegments package)
    rw [File.scope, File.scope, hpackage, hfind]
  induction hmessages generalizing taken with
  | nil => rfl
  | @cons m m' messages messages' hm _ ih =>
    obtain ⟨hname, -⟩ := Message.sameSurface_iff.mp hm
    rw [messageArtifacts, messageArtifacts, Message.topic?_of_surface hm]
    cases m'.topic? with
    | none => exact ih taken
    | some topic =>
      have hnameFor : g.nameFor file topic = g.nameFor file' topic := by
        rw [nameFor, nameFor, hpackage]
      simp only [hnameFor, hname, hg h file file' hm, hscope, ih]

theorem generateFiles_of_alike {target target' : File → Bool} {files files' : List File}
    (hfiles : List.Forall₂ (fun file file' =>
      target file = target' file' ∧ File.Alike (target file) file file') files files')
    (taken : List String) :
    g.generateFiles t taken (files.filter target) =
      g.generateFiles t' taken (files'.filter target') := by
  induction hfiles generalizing taken with
  | nil => rfl
  | @cons file file' files files' hfile _ ih =>
    obtain ⟨htargets, halike⟩ := hfile
    cases htarget : target file with
    | false =>
      rw [List.filter_cons_of_neg (by simp [htarget]),
        List.filter_cons_of_neg (by simp [← htargets, htarget])]
      exact ih taken
    | true =>
      rw [List.filter_cons_of_pos htarget, List.filter_cons_of_pos (htargets ▸ htarget),
        generateFiles, generateFiles, fileArtifacts, fileArtifacts,
        messageArtifacts_of_alike hg h halike.package_eq (halike.surfaces htarget), halike.name_eq]
      simp only [ih]

end

theorem generate_of_sameExposed {g : Generator} (hg : g.formatter.ReadsExposed)
    {request other : Request} (h : request.SameExposed other) :
    g.generate request = g.generate other := by
  have hfiles := (forall₂_alike h).imp fun file file' halike =>
    And.intro (isTarget_eq_of_name h halike.name_eq) halike
  exact generateFiles_of_alike hg (alike_tree h) hfiles []

end Generator

/-- Requests that differ only in the fields and options of messages of other files than the targets,
and of messages nested in any, get the same response, whatever the settings. -/
theorem respond_of_sameExposed {request other : Request} (h : request.SameExposed other) :
    (∀ settings, (Generator.ofSettings settings).generate request =
      (Generator.ofSettings settings).generate other) ∧
    respond request = respond other := by
  have hgenerate : ∀ settings, (Generator.ofSettings settings).generate request =
      (Generator.ofSettings settings).generate other := fun settings =>
    Generator.generate_of_sameExposed (Formatter.readsExposed_ofSettings settings) h
  refine ⟨hgenerate, ?_⟩
  rw [respond, respond, h.parameter_eq]
  cases Settings.ofParameter other.parameter with
  | error fault => rfl
  | ok settings => exact congrArg Generated.response (hgenerate settings)

/-- A target that refers to a message inside one of another file. What is given are the fields and
options of the messages that no artifact is made for. -/
def dependentRequest (fields : List Field) (options : Option Options) : Request where
  targets := ["derived.proto"]
  files := [
    { name := "base.proto", package := some "p", messages := [
      { name := "Base", fields, options, nested := [{ name := "Part", fields, options }] }] },
    { name := "derived.proto", package := some "p.q", messages := [
      { name := "Derived",
        fields := [{ name := "part", kind := .message, typeName := some "Base.Part" }],
        nested := [{ name := "Inner", fields, options }],
        options := some ⟨some ⟨some "topic"⟩⟩ }] }]

def brokenField : Field := { name := "broken", kind := .message, typeName := some "Missing" }

/-- A field that could not be resolved does no harm outside the targets. -/
theorem respond_of_sameExposed_broken :
    (dependentRequest [] none).SameExposed
      (dependentRequest [brokenField] (some ⟨some ⟨some "topic"⟩⟩)) ∧
    respond (dependentRequest [] none) =
      respond (dependentRequest [brokenField] (some ⟨some ⟨some "topic"⟩⟩)) ∧
    (respond (dependentRequest [] none)).failure = none := by
  have hexposed : (dependentRequest [] none).SameExposed
      (dependentRequest [brokenField] (some ⟨some ⟨some "topic"⟩⟩)) := by
    constructor
    · intro name
      exact Iff.rfl
    · rfl
    · simp [dependentRequest, Request.exposed, Request.isTarget, Message.surface, Message.outline]
  exact ⟨hexposed, (respond_of_sameExposed hexposed).2, by decide +kernel⟩

end TopicPlugin
