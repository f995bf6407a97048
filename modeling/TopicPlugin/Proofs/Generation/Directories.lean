import Mathlib.Data.List.TakeWhile
import TopicPlugin.Proofs.Generation.ArtifactNames

/-!
# Directories beside namespaces

The namespace of a package leaves out all dots in front of it, and the directory of a package leaves
out one. So the directory is the path of the namespace, with a slash in front for each further dot.
Of two files in one namespace the directories are the same exactly if they have as many of these
dots; then equal topics lead to one name, and the later of the two messages cannot have its
artifact.
-/

namespace TopicPlugin

namespace Text

/-- Joining the pieces by another separator puts it in the place of the first one. -/
theorem intercalate_splitChars_of_other (sep other : Char) (cs : List Char) :
    [other].intercalate (splitChars sep cs) = cs.map fun c => if c = sep then other else c := by
  induction cs with
  | nil => rfl
  | cons c cs ih =>
    obtain ⟨piece, pieces, hp⟩ := List.exists_cons_of_ne_nil (splitChars_ne_nil sep cs)
    rw [hp] at ih
    by_cases h : c = sep
    · rw [splitChars, if_pos h, hp, List.intercalate_cons_cons, ih, List.map_cons, if_pos h]
      rfl
    · rw [splitChars, if_neg h, hp, List.modifyHead_cons, List.intercalate_cons_cons_left, ih,
        List.map_cons, if_neg h]

theorem splitChars_replicate_append (sep : Char) (count : Nat) (cs : List Char) :
    splitChars sep (List.replicate count sep ++ cs) =
      List.replicate count [] ++ splitChars sep cs := by
  induction count with
  | zero => rfl
  | succ count ih =>
    rw [List.replicate_succ, List.cons_append, splitChars, if_pos rfl, ih]
    rfl

/-- Without a separator in front, the first piece is empty only if the text is. -/
theorem dropWhile_splitChars {sep : Char} {cs : List Char} (h : cs.head? ≠ some sep) :
    (splitChars sep cs).dropWhile (· = []) = if cs = [] then [] else splitChars sep cs := by
  cases cs with
  | nil => rfl
  | cons c cs =>
    have hc : c ≠ sep := fun he => h (congrArg some he)
    obtain ⟨piece, pieces, hp⟩ := List.exists_cons_of_ne_nil (splitChars_ne_nil sep cs)
    rw [if_neg (List.cons_ne_nil c cs), splitChars, if_neg hc, hp, List.modifyHead_cons,
      List.dropWhile_cons_of_neg (by simp)]

end Text

namespace Dotted

def leadingDots (name : String) : Nat := (name.toList.takeWhile (· = '.')).length

theorem exists_rest (name : String) :
    ∃ rest, name.toList = List.replicate (leadingDots name) '.' ++ rest ∧
      rest.head? ≠ some '.' := by
  refine ⟨name.toList.dropWhile (· = '.'), ?_, fun hdot => ?_⟩
  · have hdots : name.toList.takeWhile (· = '.') = List.replicate (leadingDots name) '.' := by
      refine List.eq_replicate_iff.mpr ⟨rfl, fun c hc => ?_⟩
      simpa using List.mem_takeWhile_imp hc
    rw [← hdots, List.takeWhile_append_dropWhile]
  · have hfirst := List.head?_dropWhile_not (· = '.') name.toList
    rw [hdot] at hfirst
    exact absurd hfirst (by decide)

section

variable {name : String} {rest : List Char}
  (h : name.toList = List.replicate (leadingDots name) '.' ++ rest)

include h

/-- A namespace leaves out all dots in front. -/
theorem packageSegments_of_rest (hrest : rest.head? ≠ some '.') :
    packageSegments name =
      if rest = [] then [] else (Text.splitChars '.' rest).map String.ofList := by
  have hempty : (fun segment : String => decide (segment = "")) ∘ String.ofList =
      fun piece => decide (piece = []) := by
    funext piece
    exact decide_eq_decide.mpr String.ofList_eq_empty_iff
  have hdots : ∀ piece ∈ List.replicate (leadingDots name) ([] : List Char),
      decide (piece = []) = true := by
    intro piece hpiece
    simpa using List.eq_of_mem_replicate hpiece
  rw [packageSegments, segments, Text.split, List.dropWhile_map, hempty, h,
    Text.splitChars_replicate_append, List.dropWhile_append_of_pos hdots,
    Text.dropWhile_splitChars hrest]
  split <;> rfl

/-- A directory leaves out one. -/
theorem barePackage_of_rest (hrest : rest.head? ≠ some '.') :
    (barePackage (some name)).toList = List.replicate (leadingDots name - 1) '.' ++ rest := by
  change ((absolute? name).getD name).toList = _
  cases hcount : leadingDots name with
  | zero =>
    rw [hcount] at h
    have hnone : absolute? name = none := by
      unfold absolute?
      split
      next after hafter =>
        rw [h] at hafter
        exact absurd (congrArg List.head? hafter) hrest
      next => rfl
    rw [hnone, Option.getD_none, h]
  | succ count =>
    rw [hcount] at h
    have hsome : absolute? name = some (String.ofList (List.replicate count '.' ++ rest)) := by
      unfold absolute?
      rw [h]
      rfl
    rw [hsome, Option.getD_some, String.toList_ofList, Nat.add_sub_cancel]

theorem intercalate_packageSegments (hrest : rest.head? ≠ some '.') :
    "/".intercalate (packageSegments name) = String.ofList (rest.map slashed) := by
  rw [packageSegments_of_rest h hrest]
  apply String.toList_injective
  split
  next hnil =>
    rw [hnil]
    rfl
  next =>
    have hid : (String.toList ∘ String.ofList) = id := by
      funext piece
      exact String.toList_ofList
    rw [String.toList_intercalate, List.map_map, hid, List.map_id]
    exact (Text.intercalate_splitChars_of_other '.' '/' rest).trans String.toList_ofList.symm

end

/-- The number of dots in front of a package, apart from the first. -/
def extraDots (package : Option String) : Nat := package.elim 0 (leadingDots · - 1)

/-- The directory of a package is the path of its namespace, behind a slash for each extra dot. -/
theorem packageDirectory_eq_path (package : Option String) :
    packageDirectory package = String.ofList (List.replicate (extraDots package) '/') ++
      "/".intercalate (namespacePath package) := by
  cases package with
  | none => rfl
  | some name =>
    obtain ⟨rest, h, hrest⟩ := exists_rest name
    change _ = _ ++ "/".intercalate (packageSegments name)
    rw [packageDirectory_eq, barePackage_of_rest h hrest, intercalate_packageSegments h hrest,
      List.map_append, List.map_replicate, String.ofList_append]
    rfl

/-- In one namespace, the extra dots alone tell the directories apart. -/
theorem packageDirectory_eq_iff_of_namespacePath {package other : Option String}
    (h : namespacePath package = namespacePath other) :
    packageDirectory package = packageDirectory other ↔ extraDots package = extraDots other := by
  rw [packageDirectory_eq_path, packageDirectory_eq_path, h, String.append_left_inj]
  constructor
  · intro he
    simpa using congrArg List.length (String.ofList_injective he)
  · intro he
    rw [he]

end Dotted

open Dotted

namespace Generator

variable (g : Generator) {request : Request}

/-- A name that an earlier message of the work has is in the way of a later one. -/
theorem obstacle?_of_nameOf_eq {i j : Nat} {a b : Annotated} (hij : i < j)
    (ha : request.annotated[i]? = some a) (hb : request.annotated[j]? = some b)
    (hname : g.nameOf a = g.nameOf b) :
    g.obstacle? request j = some (.duplicateArtifact (g.nameOf b) b.message.name) := by
  have hearlier : a ∈ request.annotated.take j :=
    List.mem_of_getElem? ((List.getElem?_take_of_lt hij).trans ha)
  have hused : g.nameOf b ∈ (request.annotated.take j).map g.nameOf :=
    hname ▸ List.mem_map_of_mem hearlier
  rw [obstacle?, hb, Option.bind_some, obstacleAmong?, if_pos hused]

/-- A run over work with an obstacle fails. -/
theorem isSome_failure_of_obstacle? {j : Nat} {failure : Failure}
    (h : g.obstacle? request j = some failure) : (g.generate request).failure.isSome := by
  rw [(g.generate_eq request).1]
  cases hfirst : g.firstObstacle? request.tree [] request.annotated with
  | some found => rfl
  | none =>
    have hfree := g.free_of_firstObstacle?_eq_none request.tree hfirst j
    rw [List.nil_append] at hfree
    rw [obstacle?, hfree] at h
    cases h

theorem nameOf_eq_iff_of_topic {a b : Annotated} (h : a.topic = b.topic) :
    g.nameOf a = g.nameOf b ↔
      packageDirectory a.file.package = packageDirectory b.file.package := by
  constructor
  · intro he
    exact (artifactName_inj a.topic.slash_notMem b.topic.slash_notMem he).1
  · intro he
    rw [nameOf, nameOf, nameFor, nameFor, he, h]

end Generator

/-- The directory of a package is the path of its namespace with slashes if the package has no more
than one dot in front, and has a slash in front for each further dot. So messages of one topic in
one namespace compete for one artifact exactly if their packages have as many of these dots, and
then the run fails, at the later message if nothing stops it before. -/
theorem directory_follows_namespace (g : Generator) (request : Request) :
    (∀ package, packageDirectory package = String.ofList (List.replicate (extraDots package) '/') ++
      "/".intercalate (namespacePath package)) ∧
    (∀ package, packageDirectory package = "/".intercalate (namespacePath package) ↔
      extraDots package = 0) ∧
    ∀ (i j : Nat) (a b : Annotated), i < j →
      request.annotated[i]? = some a → request.annotated[j]? = some b →
      namespacePath a.file.package = namespacePath b.file.package → a.topic = b.topic →
      (packageDirectory a.file.package = packageDirectory b.file.package ↔
        extraDots a.file.package = extraDots b.file.package) ∧
      (g.nameOf a = g.nameOf b ↔ extraDots a.file.package = extraDots b.file.package) ∧
      (extraDots a.file.package = extraDots b.file.package →
        g.obstacle? request j = some (.duplicateArtifact (g.nameOf b) b.message.name) ∧
        (g.generate request).failure.isSome) := by
  refine ⟨packageDirectory_eq_path, fun package => ?_, ?_⟩
  · rw [packageDirectory_eq_path, String.append_eq_right_iff, String.ofList_eq_empty_iff,
      List.replicate_eq_nil_iff]
  · intro i j a b hij ha hb hpath htopic
    have hdirectory := packageDirectory_eq_iff_of_namespacePath hpath
    have hname := (g.nameOf_eq_iff_of_topic htopic).trans hdirectory
    refine ⟨hdirectory, hname, fun hdots => ?_⟩
    have hobstacle := g.obstacle?_of_nameOf_eq hij ha hb (hname.mpr hdots)
    exact ⟨hobstacle, g.isSome_failure_of_obstacle? hobstacle⟩

/-- Two files for one topic in one namespace, the package of the second with two dots in front. -/
def twoDotsRequest : Request where
  targets := ["orders.proto", "dotted.proto"]
  files := [
    { name := "orders.proto", package := some "shop", messages := [{
        name := "Order", options := some ⟨some ⟨some "order.v1"⟩⟩ }] },
    { name := "dotted.proto", package := some "..shop", messages := [{
        name := "DottedOrder", options := some ⟨some ⟨some "order.v1"⟩⟩ }] }]

/-- The second file keeps a slash in front of its directory, and no duplicate is found. -/
theorem two_dots_apart :
    namespacePath (some "shop") = namespacePath (some "..shop") ∧
    packageDirectory (some "shop") = "shop" ∧ packageDirectory (some "..shop") = "/shop" ∧
    ((Generator.mk {} .placeholder).generate twoDotsRequest).artifacts.map (·.name) =
      ["shop/order.v1.schema", "/shop/order.v1.schema"] ∧
    ((Generator.mk {} .placeholder).generate twoDotsRequest).failure = none := by
  decide +kernel

end TopicPlugin
