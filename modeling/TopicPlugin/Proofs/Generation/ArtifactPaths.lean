import TopicPlugin.Proofs.Generation.Directories
import TopicPlugin.Proofs.Generation.Scopes
import TopicPlugin.Proofs.Namespace.Linkage
import TopicPlugin.Proofs.Settings.Assignments

/-!
# Where artifacts are written

An artifact is written at the path that its name spells below an output directory, and on some
systems a backslash separates the components of a path as well. Three filters keep the path inside:
a topic has no slash of either kind, an extension has neither a slash nor a dot, and the dots of a
package become slashes. What is left to the package is to hold no slash of its own and no more than
one dot in front. Then the components of a name are the segments of the package's namespace and, at
the end, the topic with the extension.
-/

namespace TopicPlugin

namespace Text

theorem mem_of_mem_splitChars {sep c : Char} {cs piece : List Char}
    (hpiece : piece ∈ splitChars sep cs) (hc : c ∈ piece) : c ∈ cs := by
  induction cs generalizing piece with
  | nil =>
    rw [List.mem_singleton.mp hpiece] at hc
    exact hc
  | cons first cs ih =>
    obtain ⟨head, tail, hp⟩ := List.exists_cons_of_ne_nil (splitChars_ne_nil sep cs)
    rw [hp] at ih
    by_cases hfirst : first = sep
    · rw [splitChars, if_pos hfirst, hp, List.mem_cons] at hpiece
      cases hpiece with
      | inl hnil =>
        rw [hnil] at hc
        cases hc
      | inr hlater => exact List.mem_cons_of_mem _ (ih hlater hc)
    · rw [splitChars, if_neg hfirst, hp, List.modifyHead_cons, List.mem_cons] at hpiece
      cases hpiece with
      | inl hhead =>
        rw [hhead, List.mem_cons] at hc
        exact List.mem_cons.mpr (hc.imp_right (ih List.mem_cons_self))
      | inr hlater => exact List.mem_cons_of_mem _ (ih (List.mem_cons_of_mem _ hlater) hc)

/-- Pieces that are joined by a separator that none of them holds are split apart again. -/
theorem splitChars_intercalate {sep : Char} {pieces : List (List Char)} (hne : pieces ≠ [])
    (h : ∀ piece ∈ pieces, sep ∉ piece) :
    splitChars sep ([sep].intercalate pieces) = pieces := by
  induction pieces with
  | nil => exact absurd rfl hne
  | cons piece pieces ih =>
    have hpiece := splitChars_of_notMem (h piece List.mem_cons_self)
    cases pieces with
    | nil => rw [List.intercalate_singleton, hpiece]
    | cons next pieces =>
      have hrest := ih (List.cons_ne_nil next pieces)
        fun other hother => h other (List.mem_cons_of_mem piece hother)
      rw [List.intercalate_cons_cons, List.append_assoc, List.singleton_append,
        splitChars_append_sep, hpiece, hrest]
      rfl

end Text

/-- The components of a path, which slashes of either kind separate. -/
def components (path : String) : List String :=
  (Text.split '/' path).flatMap (Text.split '\\')

/-- A text without a slash of either kind is one component. -/
structure SlashFree (text : String) : Prop where
  slash_notMem : '/' ∉ text.toList
  backslash_notMem : '\\' ∉ text.toList

/-- A path that leads from a directory to a place below it, whatever is there. -/
structure StaysInside (path : String) : Prop where
  relative : path.toList.head? ≠ some '/'
  descends : ∀ component ∈ components path, component ≠ "." ∧ component ≠ ".."

theorem components_of_split {path : String} {pieces : List String}
    (hsplit : Text.split '/' path = pieces) (h : ∀ piece ∈ pieces, SlashFree piece) :
    components path = pieces := by
  have hsingle : ∀ piece ∈ pieces, Text.split '\\' piece = [piece] :=
    fun piece hpiece => Text.split_of_notMem (h piece hpiece).backslash_notMem
  rw [components, hsplit, List.flatMap_congr hsingle, List.flatMap_singleton']

/-- A slash in front of a path leaves an empty piece there. -/
theorem head?_ne_slash_of_rooted {path : String} (h : Dotted.Rooted (Text.split '/' path)) :
    path.toList.head? ≠ some '/' := by
  intro hslash
  obtain ⟨rest, hrest⟩ := List.head?_eq_some_iff.mp hslash
  apply h
  rw [Text.split, hrest, Text.splitChars, if_pos rfl]
  rfl

theorem ne_dots_of_mem {component : String} {c : Char} (hc : c ∈ component.toList)
    (hdot : c ≠ '.') : component ≠ "." ∧ component ≠ ".." := by
  constructor
  · intro h
    rw [h] at hc
    exact hdot (by simpa using hc)
  · intro h
    rw [h] at hc
    exact hdot (by simpa using hc)

theorem ne_dots_of_dot_notMem {component : String} (h : '.' ∉ component.toList) :
    component ≠ "." ∧ component ≠ ".." := by
  constructor
  · intro hdot
    rw [hdot] at h
    exact h (by decide)
  · intro hdots
    rw [hdots] at h
    exact h (by decide)

namespace Dotted

/-- A package without a slash of either kind, and with one dot in front at most. -/
structure Plain (package : String) : Prop where
  slashFree : SlashFree package
  not_two_dots : ¬ ['.', '.'] <+: package.toList

theorem mem_of_mem_namespacePath {package segment : String} {c : Char}
    (hsegment : segment ∈ namespacePath (some package)) (hc : c ∈ segment.toList) :
    c ∈ package.toList := by
  have hin : segment ∈ segments package := (List.dropWhile_sublist _).subset hsegment
  obtain ⟨piece, hpiece, rfl⟩ := List.mem_map.mp hin
  rw [String.toList_ofList] at hc
  exact Text.mem_of_mem_splitChars hpiece hc

section

variable {package : Option String} (h : ∀ name ∈ package, Plain name)

include h

theorem slashFree_of_mem_namespacePath {segment : String}
    (hsegment : segment ∈ namespacePath package) : SlashFree segment := by
  cases package with
  | none => cases hsegment
  | some name =>
    have hname := (h name rfl).slashFree
    constructor
    · intro hslash
      exact hname.slash_notMem (mem_of_mem_namespacePath hsegment hslash)
    · intro hbackslash
      exact hname.backslash_notMem (mem_of_mem_namespacePath hsegment hbackslash)

theorem extraDots_eq_zero : extraDots package = 0 := by
  cases package with
  | none => rfl
  | some name =>
    obtain ⟨rest, hrest, -⟩ := exists_rest name
    show leadingDots name - 1 = 0
    by_contra hmore
    obtain ⟨count, hcount⟩ : ∃ count, leadingDots name = count + 2 :=
      ⟨leadingDots name - 2, by omega⟩
    apply (h name rfl).not_two_dots
    rw [hrest, hcount]
    exact ⟨List.replicate count '.' ++ rest, rfl⟩

theorem packageDirectory_of_plain :
    packageDirectory package = "/".intercalate (namespacePath package) := by
  rw [packageDirectory_eq_path, extraDots_eq_zero h]
  exact String.empty_append

/-- The pieces of a directory between its slashes are the segments of the namespace. -/
theorem splitChars_packageDirectory (hne : namespacePath package ≠ []) :
    Text.splitChars '/' (packageDirectory package).toList =
      (namespacePath package).map String.toList := by
  have hpieces : ∀ piece ∈ (namespacePath package).map String.toList, '/' ∉ piece := by
    intro piece hpiece
    obtain ⟨segment, hsegment, rfl⟩ := List.mem_map.mp hpiece
    exact (slashFree_of_mem_namespacePath h hsegment).slash_notMem
  rw [packageDirectory_of_plain h, String.toList_intercalate]
  exact Text.splitChars_intercalate (fun hnil => hne (List.map_eq_nil_iff.mp hnil)) hpieces

/-- The directory is the top for the root alone, since the first segment of a path is not empty. -/
theorem packageDirectory_eq_empty_iff :
    packageDirectory package = "" ↔ namespacePath package = [] := by
  constructor
  · intro hempty
    by_contra hne
    have hsplit := splitChars_packageDirectory h hne
    rw [hempty] at hsplit
    have hmap : (namespacePath package).map String.toList = [""].map String.toList := hsplit.symm
    have hsingle : namespacePath package = [""] :=
      List.map_injective_iff.mpr (fun _ _ he => String.toList_injective he) hmap
    exact rooted_namespacePath package (congrArg List.head? hsingle)
  · intro hnil
    rw [packageDirectory_of_plain h, hnil]
    rfl

end

end Dotted

open Dotted

theorem Topic.slashFree (topic : Topic) : SlashFree topic.text :=
  ⟨topic.slash_notMem, fun hin => (topic.ne_slash_of_mem hin).2 rfl⟩

theorem Topic.exists_mem_ne_dot (topic : Topic) : ∃ c ∈ topic.text.toList, c ≠ '.' := by
  have husable := topic.usable
  rw [isTopic, Bool.and_eq_true, List.any_eq_true] at husable
  simpa using husable.1

theorem isExtension_iff {value : String} :
    isExtension value = true ↔ value ≠ "" ∧ '.' ∉ value.toList ∧ SlashFree value := by
  rw [isExtension, Bool.and_eq_true, decide_eq_true_iff, List.all_eq_true]
  constructor
  · intro h
    obtain ⟨hne, hall⟩ := h
    refine ⟨hne, fun hin => ?_, fun hin => ?_, fun hin => ?_⟩
    · simpa using hall '.' hin
    · simpa using hall '/' hin
    · simpa using hall '\\' hin
  · intro h
    obtain ⟨hne, hdot, hfree⟩ := h
    refine ⟨hne, fun c hc => ?_⟩
    have hcdot : c ≠ '.' := fun he => hdot (he ▸ hc)
    have hcslash : c ≠ '/' := fun he => hfree.slash_notMem (he ▸ hc)
    have hcback : c ≠ '\\' := fun he => hfree.backslash_notMem (he ▸ hc)
    simp [hcdot, hcslash, hcback]

/-- The name of the file that an artifact is written to. -/
def fileName (topic : Topic) (extension : String) : String := topic.text ++ "." ++ extension

section

variable (topic : Topic) {extension : String}

theorem slashFree_fileName (h : SlashFree extension) : SlashFree (fileName topic extension) := by
  have htext : (fileName topic extension).toList =
      topic.text.toList ++ '.' :: extension.toList := by
    simp [fileName]
  constructor
  · rw [htext, List.mem_append, List.mem_cons]
    simp [topic.slashFree.slash_notMem, h.slash_notMem]
  · rw [htext, List.mem_append, List.mem_cons]
    simp [topic.slashFree.backslash_notMem, h.backslash_notMem]

/-- A topic is never dots only, so its file is neither of the two names for directories. -/
theorem fileName_ne_dots : fileName topic extension ≠ "." ∧ fileName topic extension ≠ ".." := by
  obtain ⟨c, hc, hdot⟩ := topic.exists_mem_ne_dot
  refine ne_dots_of_mem ?_ hdot
  rw [fileName, String.append_assoc, String.toList_append]
  exact List.mem_append_left _ hc

theorem fileName_ne_empty : fileName topic extension ≠ "" := by
  intro hempty
  have hlist := congrArg String.toList hempty
  simp [fileName] at hlist

variable {package : Option String} (hpackage : ∀ name ∈ package, Plain name)
  (hextension : SlashFree extension)

include hpackage hextension

/-- The pieces of an artifact's name are the path of the namespace and the file. -/
theorem split_artifactName :
    Text.split '/' (artifactName (packageDirectory package) topic.text extension) =
      namespacePath package ++ [fileName topic extension] := by
  have hname : artifactName (packageDirectory package) topic.text extension =
      artifactStem (packageDirectory package) (fileName topic extension) := by
    rw [artifactName, artifactStem, fileName]
    simp only [String.append_assoc]
  rw [Text.split, hname, splitChars_stem (slashFree_fileName topic hextension).slash_notMem]
  by_cases hnil : namespacePath package = []
  · rw [if_pos ((packageDirectory_eq_empty_iff hpackage).mpr hnil), hnil, List.map_singleton,
      String.ofList_toList]
    rfl
  · have hdirectory : packageDirectory package ≠ "" :=
      fun hempty => hnil ((packageDirectory_eq_empty_iff hpackage).mp hempty)
    have hid : String.ofList ∘ String.toList = id := by
      funext text
      exact String.ofList_toList
    rw [if_neg hdirectory, splitChars_packageDirectory hpackage hnil, List.map_append,
      List.map_map, hid, List.map_id, List.map_singleton, String.ofList_toList]

theorem components_artifactName :
    components (artifactName (packageDirectory package) topic.text extension) =
      namespacePath package ++ [fileName topic extension] := by
  refine components_of_split (split_artifactName topic hpackage hextension) ?_
  intro piece hpiece
  rw [List.mem_append, List.mem_singleton] at hpiece
  cases hpiece with
  | inl hsegment => exact slashFree_of_mem_namespacePath hpackage hsegment
  | inr hfile =>
    rw [hfile]
    exact slashFree_fileName topic hextension

theorem staysInside_artifactName :
    StaysInside (artifactName (packageDirectory package) topic.text extension) := by
  constructor
  · apply head?_ne_slash_of_rooted
    rw [split_artifactName topic hpackage hextension]
    cases hpath : namespacePath package with
    | nil => exact fun he => fileName_ne_empty topic (Option.some.inj he)
    | cons first path =>
      have hrooted := rooted_namespacePath package
      rw [hpath] at hrooted
      exact hrooted
  · rw [components_artifactName topic hpackage hextension]
    intro component hcomponent
    rw [List.mem_append, List.mem_singleton] at hcomponent
    cases hcomponent with
    | inl hsegment => exact ne_dots_of_dot_notMem (dotFree_namespacePath package _ hsegment)
    | inr hfile =>
      rw [hfile]
      exact fileName_ne_dots topic

end

/-- Every artifact of a run has the name that an annotated message asks for. -/
theorem Generator.exists_annotated_of_mem (g : Generator) {request : Request} {artifact : Artifact}
    (h : artifact ∈ (g.generate request).artifacts) :
    ∃ a ∈ request.annotated, artifact.name = g.nameOf a := by
  have hmade : Except.ok artifact ∈ (g.generate request).artifacts.map (Except.ok (ε := Failure)) :=
    List.mem_map_of_mem h
  rw [(g.generate_eq request).2] at hmade
  obtain ⟨a, ha, hartifact⟩ := List.mem_map.mp hmade
  exact ⟨a, mem_of_mem_kept ha, g.name_of_artifactOf request.tree hartifact⟩

theorem mem_targetFiles_of_mem_annotated {request : Request} {a : Annotated}
    (h : a ∈ request.annotated) : a.file ∈ request.targetFiles := by
  obtain ⟨hposition, htarget⟩ := Generator.of_mem_annotated h
  exact List.mem_filter.mpr ⟨List.mem_of_getElem? hposition, htarget⟩

theorem settings_ofSettings (settings : Settings) :
    (Generator.ofSettings settings).settings = settings := by
  unfold Generator.ofSettings
  split <;> rfl

/-- Only an accepted parameter leads to artifacts, and its settings decide the names. -/
theorem exists_settings_of_mem_respond {request : Request} {artifact : Artifact}
    (h : artifact ∈ (respond request).artifacts) :
    ∃ settings, Settings.ofParameter request.parameter = .ok settings ∧
      artifact ∈ ((Generator.ofSettings settings).generate request).artifacts := by
  unfold respond at h
  split at h
  next => cases h
  next settings hsettings => exact ⟨settings, hsettings, h⟩

/-- If no package of a target file has a slash or two dots in front, every artifact stays inside the
output directory. Its path goes along the namespace of a target file and ends in the topic of a
message of this file with the extension of the settings, which is not empty and has no dot and no
slash in it. -/
theorem artifacts_stay_inside (request : Request)
    (h : ∀ file ∈ request.targetFiles, ∀ package ∈ file.package, Plain package) :
    ∀ artifact ∈ (respond request).artifacts, StaysInside artifact.name ∧
      ∃ settings, Settings.ofParameter request.parameter = .ok settings ∧
        settings.extension ≠ "" ∧ '.' ∉ settings.extension.toList ∧
        SlashFree settings.extension ∧
        ∃ file ∈ request.targetFiles, ∃ message ∈ file.messages, ∃ topic,
          message.topic? = some topic ∧
          components artifact.name =
            namespacePath file.package ++ [topic.text ++ "." ++ settings.extension] := by
  intro artifact hartifact
  obtain ⟨settings, hsettings, hmade⟩ := exists_settings_of_mem_respond hartifact
  obtain ⟨a, ha, hname⟩ := Generator.exists_annotated_of_mem _ hmade
  have hfile := mem_targetFiles_of_mem_annotated ha
  obtain ⟨hmessage, htopic⟩ := message_of_mem_annotated ha
  obtain ⟨hne, hdot, hfree⟩ := isExtension_iff.mp (Settings.isExtension_of_ofParameter hsettings)
  rw [Generator.nameOf, Generator.nameFor, settings_ofSettings] at hname
  rw [hname]
  exact ⟨staysInside_artifactName a.topic (h _ hfile) hfree, settings, hsettings, hne, hdot, hfree,
    a.file, hfile, a.message, hmessage, a.topic, htopic,
    components_artifactName a.topic (h _ hfile) hfree⟩

/-- Dots wherever they may stand: in front of a package, twice inside it, and in front of a topic. -/
def dottedRequest : Request where
  targets := ["order.proto"]
  parameter := some "content=placeholder, extension = json"
  files := [{ name := "order.proto", package := some ".shop..v1", messages := [{
    name := "Order", options := some ⟨some ⟨some "..order"⟩⟩ }] }]

theorem artifacts_stay_inside_dotted :
    (respond dottedRequest).artifacts.map (·.name) = ["shop//v1/..order.json"] ∧
    ∀ artifact ∈ (respond dottedRequest).artifacts, StaysInside artifact.name := by
  refine ⟨by decide +kernel, fun artifact hartifact => ?_⟩
  have hplain : ∀ file ∈ dottedRequest.targetFiles, ∀ package ∈ file.package, Plain package := by
    intro file hfile package hpackage
    obtain rfl := List.mem_singleton.mp (List.mem_filter.mp hfile).1
    obtain rfl := Option.some.inj hpackage
    exact ⟨⟨by decide, by decide⟩, by decide⟩
  exact (artifacts_stay_inside dottedRequest hplain artifact hartifact).1

end TopicPlugin
