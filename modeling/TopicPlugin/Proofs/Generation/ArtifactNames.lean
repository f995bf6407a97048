import TopicPlugin.Proofs.Dotted.QualifiedName
import TopicPlugin.Proofs.Generation.FailFast

/-!
# What the name of an artifact tells

The last slash in the name of an artifact ends its directory, since a topic has none, and the
directory tells the package up to one leading dot if the package has no slash of its own. So of two
artifacts with one extension the names are the same exactly if the topics and the packages are. The
extension may be any text: it only follows.
-/

namespace TopicPlugin

namespace Dotted

/-- A package without one leading dot; a package that is left out is the empty one. -/
def barePackage (package : Option String) : String :=
  package.elim "" fun name => (absolute? name).getD name

def slashed (c : Char) : Char := if c = '.' then '/' else c

theorem packageDirectory_eq (package : Option String) :
    packageDirectory package = String.ofList ((barePackage package).toList.map slashed) := by
  cases package with
  | none => rfl
  | some name => rfl

theorem slash_notMem_barePackage {package : Option String}
    (h : ∀ name ∈ package, '/' ∉ name.toList) : '/' ∉ (barePackage package).toList := by
  cases package with
  | none => simp [barePackage]
  | some name =>
    have hname := h name rfl
    change '/' ∉ ((absolute? name).getD name).toList
    unfold absolute?
    split
    next rest hrest =>
      rw [hrest] at hname
      rw [Option.getD_some, String.toList_ofList]
      exact fun hin => hname (List.mem_cons_of_mem _ hin)
    next => exact hname

theorem slashed_inj {c d : Char} (hc : c ≠ '/') (hd : d ≠ '/') (h : slashed c = slashed d) :
    c = d := by
  unfold slashed at h
  split at h <;> split at h
  · simp_all
  · exact absurd h.symm hd
  · exact absurd h hc
  · exact h

theorem map_slashed_inj {cs ds : List Char} (hc : '/' ∉ cs) (hd : '/' ∉ ds)
    (h : cs.map slashed = ds.map slashed) : cs = ds := by
  induction cs generalizing ds with
  | nil => simpa using h.symm
  | cons c cs ih =>
    cases ds with
    | nil => simp at h
    | cons d ds =>
      obtain ⟨hhead, htail⟩ := List.cons.inj h
      rw [List.mem_cons, not_or] at hc hd
      rw [slashed_inj (Ne.symm hc.1) (Ne.symm hd.1) hhead, ih hc.2 hd.2 htail]

/-- Without slashes in them, packages have one directory exactly if they are the same up to a
leading dot. -/
theorem packageDirectory_eq_iff {package other : Option String}
    (h : ∀ name ∈ package, '/' ∉ name.toList) (ho : ∀ name ∈ other, '/' ∉ name.toList) :
    packageDirectory package = packageDirectory other ↔
      barePackage package = barePackage other := by
  rw [packageDirectory_eq, packageDirectory_eq]
  constructor
  · intro he
    have hmap := String.ofList_injective he
    exact String.toList_injective
      (map_slashed_inj (slash_notMem_barePackage h) (slash_notMem_barePackage ho) hmap)
  · intro he
    rw [he]

end Dotted

open Dotted

/-- The name of an artifact up to its extension. -/
def artifactStem (directory topic : String) : String :=
  if directory = "" then topic else directory ++ "/" ++ topic

theorem artifactName_eq (directory topic extension : String) :
    artifactName directory topic extension =
      artifactStem directory topic ++ ("." ++ extension) := by
  unfold artifactName artifactStem
  split
  · rw [String.append_assoc]
  · simp only [String.append_assoc]

theorem splitChars_stem {directory topic : String} (ht : '/' ∉ topic.toList) :
    Text.splitChars '/' (artifactStem directory topic).toList =
      if directory = "" then [topic.toList]
      else Text.splitChars '/' directory.toList ++ [topic.toList] := by
  unfold artifactStem
  split
  · exact Text.splitChars_of_notMem ht
  · have hslash : (directory ++ "/" ++ topic).toList =
        directory.toList ++ '/' :: topic.toList := by simp
    rw [hslash, Text.splitChars_append_sep, Text.splitChars_of_notMem ht]

theorem artifactStem_inj {directory other topic topic' : String} (ht : '/' ∉ topic.toList)
    (ht' : '/' ∉ topic'.toList) (h : artifactStem directory topic = artifactStem other topic') :
    directory = other ∧ topic = topic' := by
  have hpieces := congrArg (fun stem => Text.splitChars '/' stem.toList) h
  simp only [splitChars_stem ht, splitChars_stem ht'] at hpieces
  by_cases hd : directory = "" <;> by_cases ho : other = ""
  · rw [if_pos hd, if_pos ho, List.singleton_inj] at hpieces
    exact ⟨hd.trans ho.symm, String.toList_injective hpieces⟩
  · rw [if_pos hd, if_neg ho, ← List.nil_append [topic.toList],
      List.append_singleton_inj] at hpieces
    exact absurd hpieces.1.symm (Text.splitChars_ne_nil _ _)
  · rw [if_neg hd, if_pos ho, ← List.nil_append [topic'.toList],
      List.append_singleton_inj] at hpieces
    exact absurd hpieces.1 (Text.splitChars_ne_nil _ _)
  · rw [if_neg hd, if_neg ho, List.append_singleton_inj] at hpieces
    obtain ⟨hsplit, htopic⟩ := hpieces
    have hjoin := congrArg (['/'].intercalate ·) hsplit
    simp only [Text.intercalate_splitChars] at hjoin
    exact ⟨String.toList_injective hjoin, String.toList_injective htopic⟩

theorem artifactName_inj {directory other topic topic' extension : String}
    (ht : '/' ∉ topic.toList) (ht' : '/' ∉ topic'.toList)
    (h : artifactName directory topic extension = artifactName other topic' extension) :
    directory = other ∧ topic = topic' := by
  rw [artifactName_eq, artifactName_eq] at h
  exact artifactStem_inj ht ht' ((String.append_left_inj _).mp h)

theorem Topic.ne_slash_of_mem (topic : Topic) {c : Char} (hc : c ∈ topic.text.toList) :
    c ≠ '/' ∧ c ≠ '\\' := by
  have husable := topic.usable
  rw [isTopic, Bool.and_eq_true, List.all_eq_true] at husable
  have hall := husable.2 c hc
  simp only [Bool.and_eq_true, decide_eq_true_eq] at hall
  exact hall.1

theorem Topic.slash_notMem (topic : Topic) : '/' ∉ topic.text.toList :=
  fun hin => (topic.ne_slash_of_mem hin).1 rfl

theorem Topic.text_injective : Function.Injective Topic.text := by
  rintro ⟨text, husable⟩ ⟨text', husable'⟩ h
  cases h
  rfl

/-- Two messages ask for artifacts of one topic in one package, up to a leading dot. -/
def Annotated.SameTarget (a b : Annotated) : Prop :=
  a.topic = b.topic ∧ barePackage a.file.package = barePackage b.file.package

/-- The names of two artifacts are the same exactly if they are for one topic in one package. -/
theorem Generator.nameOf_eq_iff (g : Generator) {a b : Annotated}
    (ha : ∀ package ∈ a.file.package, '/' ∉ package.toList)
    (hb : ∀ package ∈ b.file.package, '/' ∉ package.toList) :
    g.nameOf a = g.nameOf b ↔ a.SameTarget b := by
  constructor
  · intro h
    obtain ⟨hdirectory, htext⟩ := artifactName_inj a.topic.slash_notMem b.topic.slash_notMem h
    exact ⟨Topic.text_injective htext, (packageDirectory_eq_iff ha hb).mp hdirectory⟩
  · rintro ⟨htopic, hpackage⟩
    rw [nameOf, nameOf, nameFor, nameFor, htopic, (packageDirectory_eq_iff ha hb).mpr hpackage]

end TopicPlugin
