/-!
# Cutting text at a separator

`split` gives the pieces of a text between the occurrences of a separator, empty pieces included;
`cut` stops at the first occurrence. Both work on the list of characters, and the forms on `String`
wrap them. Nothing is lost: the pieces, joined by the separator, are the text again, and no piece
holds the separator.
-/

namespace TopicPlugin.Text

/-- The pieces of `cs` between the occurrences of `sep`; there is always at least one. -/
def splitChars (sep : Char) : List Char → List (List Char)
  | [] => [[]]
  | c :: cs => if c = sep then [] :: splitChars sep cs else (splitChars sep cs).modifyHead (c :: ·)

/-- What stands before and after the first `sep`, if there is one. -/
def cutChars (sep : Char) (cs : List Char) : Option (List Char × List Char) :=
  match cs.dropWhile (· ≠ sep) with
  | [] => none
  | _ :: rest => some (cs.takeWhile (· ≠ sep), rest)

def split (sep : Char) (s : String) : List String :=
  (splitChars sep s.toList).map String.ofList

def cut (sep : Char) (s : String) : Option (String × String) :=
  (cutChars sep s.toList).map fun (before, rest) => (String.ofList before, String.ofList rest)

theorem splitChars_ne_nil (sep : Char) (cs : List Char) : splitChars sep cs ≠ [] := by
  induction cs with
  | nil => simp [splitChars]
  | cons c cs ih => by_cases h : c = sep <;> simp [splitChars, h, ih]

/-- Joining the pieces restores the text. -/
theorem intercalate_splitChars (sep : Char) (cs : List Char) :
    [sep].intercalate (splitChars sep cs) = cs := by
  induction cs with
  | nil => simp [splitChars, List.intercalate]
  | cons c cs ih =>
    obtain ⟨piece, pieces, hp⟩ := List.exists_cons_of_ne_nil (splitChars_ne_nil sep cs)
    rw [hp] at ih
    by_cases h : c = sep
    · simp [splitChars, h, hp, List.intercalate] at ih ⊢
      exact ih
    · cases pieces <;> simp [splitChars, h, hp, List.intercalate] at ih ⊢ <;> exact ih

theorem sep_notMem_of_mem_splitChars {sep : Char} {cs piece : List Char}
    (h : piece ∈ splitChars sep cs) : sep ∉ piece := by
  induction cs generalizing piece with
  | nil => simp_all [splitChars]
  | cons c cs ih =>
    obtain ⟨head, tail, hp⟩ := List.exists_cons_of_ne_nil (splitChars_ne_nil sep cs)
    rw [hp] at ih
    by_cases hc : c = sep
    · simp only [splitChars, hc, if_true, List.mem_cons, hp] at h
      rcases h with rfl | h
      · simp
      · exact ih (List.mem_cons.mpr h)
    · simp only [splitChars, hc, if_false, hp, List.modifyHead_cons, List.mem_cons] at h
      rcases h with rfl | h
      · simpa [Ne.symm hc] using ih (List.mem_cons_self)
      · exact ih (List.mem_cons_of_mem _ h)

theorem cutChars_cons (sep c : Char) (cs : List Char) :
    cutChars sep (c :: cs) =
      if c = sep then some ([], cs)
      else (cutChars sep cs).map fun (before, rest) => (c :: before, rest) := by
  unfold cutChars
  by_cases h : c = sep
  · simp [h]
  · simp only [ne_eq, h, not_false_eq_true, decide_true, List.dropWhile_cons_of_pos,
      List.takeWhile_cons_of_pos, if_false]
    cases cs.dropWhile (fun x => decide ¬x = sep) <;> rfl

/-- Cutting once and splitting the rest is splitting. -/
theorem splitChars_eq_cutChars (sep : Char) (cs : List Char) :
    splitChars sep cs = match cutChars sep cs with
      | some (before, rest) => before :: splitChars sep rest
      | none => [cs] := by
  induction cs with
  | nil => rfl
  | cons c cs ih =>
    rw [cutChars_cons]
    by_cases h : c = sep
    · simp [splitChars, h]
    · simp only [splitChars, h, if_false, ih]
      cases cutChars sep cs <;> rfl

end TopicPlugin.Text
