import Mathlib.Data.List.Induction
import TopicPlugin.Dotted

/-!
# Qualified names and the paths they spell

A qualified name puts a dot before every segment of a path. Splitting such a name gives the path
back, provided no segment holds a dot; segments that come from splitting a text never do. Empty
segments are ordinary here: nothing below excludes them.
-/

namespace TopicPlugin

namespace Text

theorem splitChars_append_sep (sep : Char) (before after : List Char) :
    splitChars sep (before ++ sep :: after) =
      splitChars sep before ++ splitChars sep after := by
  induction before with
  | nil => simp [splitChars]
  | cons c before ih =>
    obtain ⟨piece, pieces, hp⟩ := List.exists_cons_of_ne_nil (splitChars_ne_nil sep before)
    by_cases hc : c = sep
    · simp [splitChars, hc, ih]
    · simp [splitChars, hc, ih, hp]

theorem splitChars_of_notMem {sep : Char} {cs : List Char} (h : sep ∉ cs) :
    splitChars sep cs = [cs] := by
  induction cs with
  | nil => rfl
  | cons c cs ih =>
    have hc : c ≠ sep := fun he => h (by simp [he])
    have hcs : sep ∉ cs := fun hm => h (List.mem_cons_of_mem c hm)
    simp [splitChars, hc, ih hcs]

theorem split_of_notMem {sep : Char} {text : String} (h : sep ∉ text.toList) :
    split sep text = [text] := by
  rw [split, splitChars_of_notMem h, List.map_singleton, String.ofList_toList]

end Text

namespace Dotted

/-- The name of a path, with a dot before every segment. -/
def qualifiedName (path : List String) : String := path.foldl qualify ""

def DotFree (path : List String) : Prop := ∀ segment ∈ path, '.' ∉ segment.toList

theorem qualifiedName_nil : qualifiedName [] = "" := rfl

theorem qualifiedName_append (path rest : List String) :
    qualifiedName (path ++ rest) = rest.foldl qualify (qualifiedName path) := by
  unfold qualifiedName
  exact List.foldl_append

theorem qualifiedName_concat (path : List String) (segment : String) :
    qualifiedName (path ++ [segment]) = qualify (qualifiedName path) segment :=
  qualifiedName_append path [segment]

theorem qualify_assoc (outer scope name : String) :
    qualify (outer ++ scope) name = outer ++ qualify scope name := by
  simp only [qualify, String.append_assoc]

theorem segments_qualify (scope name : String) :
    segments (qualify scope name) = segments scope ++ segments name := by
  have hdot : (qualify scope name).toList = scope.toList ++ '.' :: name.toList := by
    simp [qualify]
  unfold segments Text.split
  rw [hdot, Text.splitChars_append_sep, List.map_append]

theorem segments_of_notMem {segment : String} (h : '.' ∉ segment.toList) :
    segments segment = [segment] :=
  Text.split_of_notMem h

theorem segments_dot (rest : String) : segments ("." ++ rest) = "" :: segments rest := by
  have h := segments_qualify "" rest
  rwa [qualify, String.empty_append] at h

theorem segments_ne_nil (path : String) : segments path ≠ [] := by
  simpa [segments, Text.split] using Text.splitChars_ne_nil '.' path.toList

theorem dotFree_segments (path : String) : DotFree (segments path) := by
  intro segment hs
  obtain ⟨piece, hp, rfl⟩ := List.mem_map.mp hs
  rw [String.toList_ofList]
  exact Text.sep_notMem_of_mem_splitChars hp

theorem dotFree_namespacePath (package : Option String) : DotFree (namespacePath package) := by
  cases package with
  | none => simp [namespacePath, DotFree]
  | some name =>
    intro segment hs
    exact dotFree_segments name segment ((List.dropWhile_sublist _).subset hs)

/-- The name of a path starts with a dot, which leaves one empty piece in front. -/
theorem segments_qualifiedName {path : List String} (h : DotFree path) :
    segments (qualifiedName path) = "" :: path := by
  induction path using List.reverseRecOn with
  | nil => rfl
  | append_singleton path segment ih =>
    have hpath : DotFree path := fun s hs => h s (List.mem_append_left _ hs)
    have hseg : '.' ∉ segment.toList := h segment (by simp)
    rw [qualifiedName_concat, segments_qualify, ih hpath, segments_of_notMem hseg]
    rfl

/-- No two paths of segments share a name. -/
theorem qualifiedName_inj {path other : List String} (h : DotFree path) (ho : DotFree other)
    (he : qualifiedName path = qualifiedName other) : path = other := by
  have hs := congrArg segments he
  rw [segments_qualifiedName h, segments_qualifiedName ho] at hs
  exact (List.cons.inj hs).2

theorem qualify_intercalate (scope : String) (piece : List Char) (pieces : List (List Char)) :
    ((piece :: pieces).map String.ofList).foldl qualify scope =
      qualify scope (String.ofList (['.'].intercalate (piece :: pieces))) := by
  induction pieces generalizing scope piece with
  | nil => simp [List.intercalate]
  | cons next pieces ih =>
    have hcut : ['.'].intercalate (piece :: next :: pieces) =
        piece ++ '.' :: ['.'].intercalate (next :: pieces) := by
      simp [List.intercalate]
    rw [List.map_cons, List.foldl_cons, ih, hcut]
    simp [qualify, String.ofList_append, String.append_assoc]

/-- Qualifying by the segments of a text, one after the other, is qualifying by the text. -/
theorem foldl_qualify_segments (scope name : String) :
    (segments name).foldl qualify scope = qualify scope name := by
  obtain ⟨piece, pieces, hp⟩ :=
    List.exists_cons_of_ne_nil (Text.splitChars_ne_nil '.' name.toList)
  have hjoin := Text.intercalate_splitChars '.' name.toList
  unfold segments Text.split
  rw [hp] at hjoin ⊢
  rw [qualify_intercalate, hjoin, String.ofList_toList]

theorem qualifiedName_segments (name : String) : qualifiedName (segments name) = "." ++ name := by
  rw [qualifiedName, foldl_qualify_segments, qualify, String.empty_append]

theorem absolute?_dot (rest : String) : absolute? ("." ++ rest) = some rest := by
  simp [absolute?]

theorem eq_dot_of_absolute? {reference rest : String} (h : absolute? reference = some rest) :
    reference = "." ++ rest := by
  unfold absolute? at h
  split at h
  next cs hcs =>
    have hrest : String.ofList cs = rest := Option.some.inj h
    apply String.toList_inj.mp
    rw [hcs, ← hrest]
    simp
  next => cases h

theorem ofString?_dot (rest : String) :
    Reference.ofString? ("." ++ rest) = some (.absolute (segments rest)) := by
  have hne : "." ++ rest ≠ "" := by
    intro he
    have ht := congrArg String.toList he
    simp at ht
  rw [Reference.ofString?, if_neg hne, absolute?_dot]

theorem ofString?_relative {reference : String} (hne : reference ≠ "")
    (hrel : absolute? reference = none) :
    Reference.ofString? reference = some (.relative (segments reference)) := by
  rw [Reference.ofString?, if_neg hne, hrel]

theorem exists_eq_dot (path : List String) (name : String) :
    ∃ rest, qualify (qualifiedName path) name = "." ++ rest := by
  induction path using List.reverseRecOn generalizing name with
  | nil => exact ⟨name, by simp [qualifiedName_nil, qualify]⟩
  | append_singleton path segment ih =>
    obtain ⟨rest, hr⟩ := ih segment
    refine ⟨qualify rest name, ?_⟩
    rw [qualifiedName_concat, hr, qualify_assoc]

/-- The name of a path other than the root's is an absolute reference along the path. -/
theorem ofString?_qualifiedName {path : List String} (h : DotFree path) (hne : path ≠ []) :
    Reference.ofString? (qualifiedName path) = some (.absolute path) := by
  cases path using List.reverseRecOn with
  | nil => exact absurd rfl hne
  | append_singleton outer segment =>
    obtain ⟨rest, hrest⟩ := exists_eq_dot outer segment
    have hs := segments_qualifiedName h
    rw [qualifiedName_concat, hrest, segments_dot] at hs
    rw [qualifiedName_concat, hrest, ofString?_dot, List.tail_eq_of_cons_eq hs]

/-- A reference that is qualified by the name of a path is absolute, and its segments follow those
of the path. -/
theorem ofString?_qualify {path : List String} (h : DotFree path) (name : String) :
    Reference.ofString? (qualify (qualifiedName path) name) =
      some (.absolute (path ++ segments name)) := by
  obtain ⟨rest, hr⟩ := exists_eq_dot path name
  have hs := segments_qualify (qualifiedName path) name
  rw [segments_qualifiedName h, hr, segments_dot, List.cons_append] at hs
  rw [hr, ofString?_dot, List.tail_eq_of_cons_eq hs]

end Dotted

end TopicPlugin
