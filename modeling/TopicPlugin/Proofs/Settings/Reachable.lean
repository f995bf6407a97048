import TopicPlugin.Proofs.Settings.Composition

/-!
# The settings that can be reached

A parameter leads to settings whose extension is plain: something that can stand at the end of a
file name and in a parameter. Dots and slashes are refused; commas and blanks at the ends never get
as far as that, since the one separates pieces and the others are trimmed away. Conversely a
parameter can be written for each content and each plain extension, and it leads to these. An equals
sign or a blank inside the extension does no harm.
-/

namespace TopicPlugin

/-- An extension that can stand at the end of a file name and in a parameter. -/
structure PlainExtension (text : String) : Prop where
  ne_empty : text ≠ ""
  unpadded : Text.Unpadded text
  allowed : ∀ c ∈ text.toList, c ≠ '.' ∧ c ≠ '/' ∧ c ≠ '\\' ∧ c ≠ ','

theorem plainExtension_iff {text : String} :
    PlainExtension text ↔ isExtension text = true ∧ Text.Unpadded text ∧ ',' ∉ text.toList := by
  have hallowed : isExtension text = true ↔
      text ≠ "" ∧ ∀ c ∈ text.toList, c ≠ '.' ∧ c ≠ '/' ∧ c ≠ '\\' := by
    simp [isExtension, and_assoc]
  rw [hallowed]
  constructor
  · intro h
    refine ⟨⟨h.ne_empty, fun c hc => ?_⟩, h.unpadded, fun hc => (h.allowed ',' hc).2.2.2 rfl⟩
    obtain ⟨hdot, hslash, hback, -⟩ := h.allowed c hc
    exact ⟨hdot, hslash, hback⟩
  · rintro ⟨⟨hne, hchars⟩, hunpadded, hcomma⟩
    refine ⟨hne, hunpadded, fun c hc => ?_⟩
    obtain ⟨hdot, hslash, hback⟩ := hchars c hc
    exact ⟨hdot, hslash, hback, fun he => hcomma (he ▸ hc)⟩

instance (text : String) : Decidable (PlainExtension text) := decidable_of_iff' _ plainExtension_iff

namespace Settings

theorem comma_notMem_of_mem_pieces {parameter piece : String} (h : piece ∈ pieces parameter) :
    ',' ∉ piece.toList := by
  obtain ⟨hin, -⟩ := List.mem_filter.mp h
  obtain ⟨whole, hwhole, rfl⟩ := List.mem_map.mp hin
  obtain ⟨cs, hcs, rfl⟩ := List.mem_map.mp hwhole
  obtain ⟨before, after, -, -, hpadded⟩ := Text.padded_trim (String.ofList cs)
  have hcomma : ',' ∉ (String.ofList cs).toList := by
    rw [String.toList_ofList]
    exact Text.sep_notMem_of_mem_splitChars hcs
  intro htrim
  refine hcomma ?_
  rw [hpadded]
  simp [htrim]

/-- A value that counts is trimmed, and no comma is in it. -/
theorem value_of_lastValue? {key : Key} {parameter value : String}
    (h : lastValue? key (pieces parameter) = some value) :
    Text.Unpadded value ∧ ',' ∉ value.toList := by
  obtain ⟨piece, hpiece, hvalue⟩ := List.exists_of_findSome?_eq_some h
  obtain ⟨⟨written, text⟩, hcut, hkey⟩ := Option.bind_eq_some_iff.mp hvalue
  obtain ⟨-, rfl⟩ : Text.trim written = key.name ∧ Text.trim text = value := by
    simpa using hkey
  have hcomma := comma_notMem_of_mem_pieces (List.mem_reverse.mp hpiece)
  obtain ⟨before, after, -, -, hpadded⟩ := Text.padded_trim text
  refine ⟨Text.unpadded_trim text, fun htrim => hcomma ?_⟩
  have htext : ',' ∈ text.toList := by
    rw [hpadded]
    simp [htrim]
  rw [Text.toList_of_cut hcut]
  exact List.mem_append_right _ (List.mem_cons_of_mem _ htext)

theorem plainExtension_default : PlainExtension ({} : Settings).extension := by decide

theorem plainExtension_of_ofParameter {parameter : Option String} {settings : Settings}
    (h : ofParameter parameter = .ok settings) : PlainExtension settings.extension := by
  cases parameter with
  | none =>
    cases h
    exact plainExtension_default
  | some parameter =>
    have hvalue : settings.extension =
        (lastValue? .extension (pieces parameter)).getD ({} : Settings).extension :=
      value_of_ofParameter h .extension
    cases hlast : lastValue? .extension (pieces parameter) with
    | none =>
      rw [hvalue, hlast]
      exact plainExtension_default
    | some value =>
      rw [hlast, Option.getD_some] at hvalue
      subst hvalue
      exact plainExtension_iff.mpr ⟨isExtension_of_ofParameter h, value_of_lastValue? hlast⟩

/-- A single assignment as it is written is read back. -/
theorem assignments_of_written {a : Assignment} (hallowed : a.Allowed)
    (hvalue : Text.Unpadded a.value) (hcomma : ',' ∉ a.value.toList) :
    assignments (a.key.name ++ "=" ++ a.value) = .ok [a] := by
  obtain ⟨hequals, hname, hkey⟩ : '=' ∉ a.key.name.toList ∧ ',' ∉ a.key.name.toList ∧
      Text.trim a.key.name = a.key.name := by
    cases a.key <;> decide
  have hsplit : Text.split ',' (a.key.name ++ "=" ++ a.value) = [a.key.name ++ "=" ++ a.value] :=
    Text.split_of_notMem (by simp [hname, hcomma])
  obtain ⟨front, back, hcut, hfront, hback⟩ :=
    exists_cut_of_padded hequals (Text.padded_self a.key.name) (Text.padded_self a.value)
  have hne : Text.trim (a.key.name ++ "=" ++ a.value) ≠ "" := by
    intro he
    rw [he] at hcut
    cases hcut
  have hread : Assignment.ofPiece (Text.trim (a.key.name ++ "=" ++ a.value)) = .ok a :=
    Assignment.ofPiece_eq_ok_iff.mpr
      ⟨front, back, hcut, hfront.trans hkey, hback.trans hvalue.trim_eq, hallowed⟩
  rw [assignments, pieces, hsplit, List.map_singleton, List.filter_cons_of_pos (by simpa using hne),
    List.filter_nil, List.mapM_cons, hread]
  rfl

/-- The parameter that writes all settings down. -/
def parameter (settings : Settings) : String :=
  "content=" ++ settings.content.keyword ++ ",extension=" ++ settings.extension

theorem ofParameter_parameter {settings : Settings} (h : PlainExtension settings.extension) :
    ofParameter (some settings.parameter) = .ok settings := by
  obtain ⟨kind, extension⟩ := settings
  obtain ⟨hallowed, hunpadded, hcomma⟩ := plainExtension_iff.mp h
  have hcontent : assignments ("content" ++ "=" ++ kind.keyword) = .ok [.content kind] := by
    refine assignments_of_written (a := .content kind) trivial ?_ ?_
    · cases kind <;> decide
    · cases kind <;> decide
  have hextension : assignments ("extension" ++ "=" ++ extension) = .ok [.extension extension] :=
    assignments_of_written (a := .extension extension) hallowed hunpadded hcomma
  have hwritten : parameter ⟨kind, extension⟩ =
      ("content" ++ "=" ++ kind.keyword) ++ "," ++ ("extension" ++ "=" ++ extension) :=
    String.toList_inj.mp (by simp [parameter])
  rw [ofParameter, hwritten, assignments_append, hcontent, hextension]
  rfl

/-- The settings that can be reached are those with a plain extension: whatever a parameter leads to
is one of them, and each of them is what the parameter that writes it down leads to. -/
theorem reachable_iff_plain (settings : Settings) :
    ((∃ parameter, ofParameter parameter = .ok settings) ↔ PlainExtension settings.extension) ∧
    (PlainExtension settings.extension →
      ofParameter (some settings.parameter) = .ok settings) := by
  refine ⟨⟨?_, fun h => ⟨_, ofParameter_parameter h⟩⟩, ofParameter_parameter⟩
  rintro ⟨parameter, h⟩
  exact plainExtension_of_ofParameter h

/-- An extension that is written with blanks around it, and one with a blank and an equals sign in
it. -/
theorem reachable_iff_plain_spaced :
    ofParameter (some "extension =\tjson , content=schema") = .ok ⟨.schema, "json"⟩ ∧
    PlainExtension "json" ∧ PlainExtension "a=b c" ∧
    ofParameter (some "content=placeholder,extension=a=b c") = .ok ⟨.placeholder, "a=b c"⟩ := by
  have hspaced :
      ofParameter (some "extension =\tjson , content=schema") = .ok ⟨.schema, "json"⟩ := by
    decide +kernel
  have hplain : PlainExtension "a=b c" := by decide
  exact ⟨hspaced, (reachable_iff_plain ⟨.schema, "json"⟩).1.mp ⟨_, hspaced⟩, hplain,
    (reachable_iff_plain ⟨.placeholder, "a=b c"⟩).2 hplain⟩

end Settings

end TopicPlugin
