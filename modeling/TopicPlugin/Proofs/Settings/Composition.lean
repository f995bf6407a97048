import TopicPlugin.Proofs.Dotted.QualifiedName
import TopicPlugin.Proofs.Settings.Assignments
import TopicPlugin.Proofs.Text.Trimming

/-!
# Parameters behind one another

Two parameters with a comma between them are one parameter, which says what both say: the faults of
the first come first, and an assignment of the second counts before any of the first to the same
key. Blanks around a piece, its key and its value, and pieces of blanks alone, make no difference to
what a parameter leads to, whether that be settings or a fault.
-/

namespace TopicPlugin.Settings

theorem pieces_append (first second : String) :
    pieces (first ++ "," ++ second) = pieces first ++ pieces second := by
  have hcomma : (first ++ "," ++ second).toList = first.toList ++ ',' :: second.toList := by simp
  rw [pieces, Text.split, hcomma, Text.splitChars_append_sep, List.map_append, List.map_append,
    List.filter_append]
  rfl

theorem assignments_append (first second : String) :
    assignments (first ++ "," ++ second) = (do
      let as ← assignments first
      let bs ← assignments second
      pure (as ++ bs)) := by
  rw [assignments, pieces_append, List.mapM_append]
  rfl

theorem value_of_ofParameter {parameter : String} {settings : Settings}
    (h : ofParameter (some parameter) = .ok settings) (key : Key) :
    settings.value key = (lastValue? key (pieces parameter)).getD (({} : Settings).value key) := by
  obtain ⟨as, has, rfl⟩ := Traversal.map_eq_ok_iff.mp h
  exact value_foldl_assign has {} key

theorem equals_notMem_of_padded {core text : String} (h : Text.Padded core text)
    (hcore : '=' ∉ core.toList) : '=' ∉ text.toList := by
  obtain ⟨before, after, hb, ha, rfl⟩ := h
  have hnone {blank : String} (hblank : Text.Blank blank) : '=' ∉ blank.toList :=
    fun hin => absurd (hblank '=' hin) (by decide)
  simp [hcore, hnone hb, hnone ha]

/-- What the trimmed form of a piece with a key and a value is cut into. -/
theorem exists_cut_of_padded {key value k v : String} (hkey : '=' ∉ key.toList)
    (hk : Text.Padded key k) (hv : Text.Padded value v) :
    ∃ front back, Text.cut '=' (Text.trim (k ++ "=" ++ v)) = some (front, back) ∧
      Text.trim front = Text.trim key ∧ Text.trim back = Text.trim value := by
  have hequals : (k ++ "=" ++ v).toList = k.toList ++ '=' :: v.toList := by simp
  obtain ⟨front, back, hcut, hfront, hback⟩ :=
    Text.exists_cut_trim (by decide) hequals (equals_notMem_of_padded hk hkey)
  exact ⟨front, back, hcut, hfront.trans (Text.trim_of_padded hk),
    hback.trans (Text.trim_of_padded hv)⟩

end TopicPlugin.Settings
