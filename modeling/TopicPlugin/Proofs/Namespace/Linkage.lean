import Mathlib.Data.Finset.Card
import Mathlib.Data.List.Infix
import TopicPlugin.Proofs.Namespace.Paths

/-!
# How the namespaces of a tree hang together

The arena says several things twice: a parent by an index and by the child map it occurs in, a path
by the links and by the qualified name. In every tree that registrations build these agree, and so
a namespace is known by its name alone. The tree holds the root and one namespace for each
different part of a registered path, and nothing else.
-/

namespace TopicPlugin

namespace Dotted

/-- The first segment of a path, if there is one, is not empty. -/
def Rooted (path : List String) : Prop := path.head? ≠ some ""

theorem rooted_namespacePath (package : Option String) : Rooted (namespacePath package) := by
  cases package with
  | none => simp [Rooted, namespacePath]
  | some name =>
    intro hempty
    have hfirst := List.head?_dropWhile_not (· = "") (segments name)
    have hhead : ((segments name).dropWhile (· = "")).head? = some "" := hempty
    rw [hhead] at hfirst
    exact absurd hfirst (by decide)

theorem Rooted.of_longer {path longer : List String} (h : Rooted longer) (hp : path <+: longer) :
    Rooted path := by
  obtain ⟨rest, rfl⟩ := hp
  cases path with
  | nil => simp [Rooted]
  | cons first path => exact h

/-- The name of a path, read as a package, spells the path. -/
theorem packageSegments_qualifiedName {path : List String} (hfree : DotFree path)
    (hroot : Rooted path) : packageSegments (qualifiedName path) = path := by
  rw [packageSegments, segments_qualifiedName hfree, List.dropWhile_cons_of_pos (by simp)]
  cases path with
  | nil => rfl
  | cons first path =>
    have hfirst : first ≠ "" := fun he => hroot (congrArg some he)
    exact List.dropWhile_cons_of_neg (by simpa using hfirst)

end Dotted

namespace Namespace.Tree

open Dotted

variable {α : Type}

/-- A namespace is the child of another one under a segment, and the child of no other and under no
other segment; its index, its parent and its name say the same. -/
structure HangsUnder (t : Tree α) (id parent : Nat) (segment : String) : Prop where
  parent_eq : t.parent? id = some parent
  parent_lt : parent < id
  child_iff : ∀ other s, t.child? other s = some id ↔ other = parent ∧ s = segment
  dot_notMem : '.' ∉ segment.toList
  ne_empty_of_root : parent = root → segment ≠ ""
  name_eq : t.name id = qualify (t.name parent) segment

/-- All links of a tree agree. -/
structure Linked (t : Tree α) : Prop where
  root_lt : root < t.size
  parent_eq_none_iff : ∀ id < t.size, t.parent? id = none ↔ id = root
  name_root : t.name root = ""
  hangs : ∀ id < t.size, id ≠ root → ∃ parent segment, HangsUnder t id parent segment
  child_lt : ∀ id segment child, t.child? id segment = some child → child < t.size

/-- The walk from a namespace outwards ends at the root. -/
theorem Linked.getLast?_enclosing {t : Tree α} (h : Linked t) {id : Nat} (hid : id < t.size) :
    (t.enclosing id).getLast? = some root := by
  induction id using Nat.strongRecOn with
  | ind id ih =>
    cases hp : t.parent? id with
    | none =>
      rw [enclosing_of_none hp, (h.parent_eq_none_iff id hid).mp hp]
      rfl
    | some parent =>
      have hlt : parent < id := t.parent_lt hp
      have hlast := ih parent hlt (Nat.lt_trans hlt hid)
      have hne : t.enclosing parent ≠ [] := by
        intro hnil
        rw [hnil] at hlast
        cases hlast
      rw [enclosing_of_some hp, List.getLast?_cons_of_ne_nil hne, hlast]

namespace Represents

variable {t : Tree α} {paths : List (List String)}

theorem hangsUnder (h : Represents t paths) {id : Nat} {path : List String} {segment : String}
    (hp : paths[id]? = some (path ++ [segment])) (hfree : DotFree (path ++ [segment]))
    (hroot : Rooted (path ++ [segment])) : ∃ parent, HangsUnder t id parent segment := by
  obtain ⟨parent, hparent, hpath⟩ := h.parent_concat hp
  refine ⟨parent, hparent, t.parent_lt hparent, fun other s => ?_, hfree segment (by simp),
    fun htop => ?_, ?_⟩
  · constructor
    · intro hchild
      have hother : other < t.size := by
        by_contra hge
        rw [child?_eq_none (Nat.le_of_not_lt hge)] at hchild
        cases hchild
      obtain ⟨q, hq⟩ := h.exists_path hother
      have hsame := (h.child_iff hq s id).mp hchild
      rw [hp, Option.some.injEq, List.append_singleton_inj] at hsame
      obtain ⟨rfl, rfl⟩ := hsame
      exact ⟨h.id_unique hq hpath, rfl⟩
    · rintro ⟨rfl, rfl⟩
      exact (h.child_iff hpath s id).mpr hp
  · have hnil : path = [] := Option.some.inj (hpath.symm.trans ((h.root_iff parent).mpr htop))
    subst hnil
    exact fun he => hroot (congrArg some he)
  · rw [h.name_eq hp, h.name_eq hpath, qualifiedName_concat]

theorem linked (h : Represents t paths) (hfree : ∀ path ∈ paths, DotFree path)
    (hroot : ∀ path ∈ paths, Rooted path) : Linked t := by
  constructor
  · exact h.lt_size h.root_path
  · intro id hid
    obtain ⟨path, hp⟩ := h.exists_path hid
    constructor
    · intro hnone
      rcases path.eq_nil_or_concat' with rfl | ⟨outer, segment, rfl⟩
      · exact (h.root_iff id).mp hp
      · obtain ⟨parent, hparent, -⟩ := h.parent_concat hp
        rw [hnone] at hparent
        cases hparent
    · rintro rfl
      exact h.parent_root
  · exact h.name_eq h.root_path
  · intro id hid hne
    obtain ⟨path, hp⟩ := h.exists_path hid
    have hin := List.mem_of_getElem? hp
    rcases path.eq_nil_or_concat' with rfl | ⟨outer, segment, rfl⟩
    · exact absurd ((h.root_iff id).mp hp) hne
    · obtain ⟨parent, hhangs⟩ := h.hangsUnder hp (hfree _ hin) (hroot _ hin)
      exact ⟨parent, segment, hhangs⟩
  · intro id segment child hchild
    by_cases hid : id < t.size
    · obtain ⟨path, hp⟩ := h.exists_path hid
      exact h.lt_size ((h.child_iff hp segment child).mp hchild)
    · rw [child?_eq_none (Nat.le_of_not_lt hid)] at hchild
      cases hchild

/-- The name of a namespace leads back to it. -/
theorem package?_name (h : Represents t paths) (hfree : ∀ path ∈ paths, DotFree path)
    (hroot : ∀ path ∈ paths, Rooted path) {id : Nat} (hid : id < t.size) :
    t.package? (t.name id) = some id := by
  obtain ⟨path, hp⟩ := h.exists_path hid
  have hin := List.mem_of_getElem? hp
  rw [package?, h.name_eq hp, packageSegments_qualifiedName (hfree path hin) (hroot path hin)]
  exact (h.find?_eq_some_iff path id).mpr hp

theorem nodup (h : Represents t paths) : paths.Nodup := by
  rw [List.nodup_iff_getElem?_ne_getElem?]
  intro i j hij hj heq
  have hp : paths[j]? = some paths[j] := List.getElem?_eq_getElem hj
  have hsame : i = j := h.id_unique (heq.trans hp) hp
  omega

end Represents

/-- The different parts of the registered paths that begin at the root, without the root itself. -/
def registeredPaths (registrations : List (Registration α)) : Finset (List String) :=
  (registrations.flatMap fun r => (namespacePath r.package).inits).toFinset.erase []

section

variable {registrations : List (Registration α)} {paths : List (List String)}
  (hmem : ∀ path, path ∈ paths ↔
    path = [] ∨ ∃ r ∈ registrations, path <+: namespacePath r.package)

include hmem

theorem rooted_of_mem : ∀ path ∈ paths, Rooted path := by
  intro path hin
  rcases (hmem path).mp hin with rfl | ⟨r, -, hpre⟩
  · simp [Rooted]
  · exact (rooted_namespacePath r.package).of_longer hpre

theorem toFinset_eq_insert : paths.toFinset = insert [] (registeredPaths registrations) := by
  ext path
  rw [List.mem_toFinset, hmem, Finset.mem_insert, registeredPaths, Finset.mem_erase,
    List.mem_toFinset, List.mem_flatMap]
  by_cases hnil : path = []
  · simp [hnil]
  · simp [hnil]

theorem Represents.size_eq_card {t : Tree α} (h : Represents t paths) :
    t.size = 1 + (registeredPaths registrations).card := by
  have hroot : [] ∉ registeredPaths registrations := Finset.notMem_erase [] _
  calc t.size = paths.length := h.size_eq
    _ = paths.toFinset.card := (List.toFinset_card_of_nodup h.nodup).symm
    _ = (insert [] (registeredPaths registrations)).card := by rw [toFinset_eq_insert hmem]
    _ = 1 + (registeredPaths registrations).card := by
      rw [Finset.card_insert_of_notMem hroot, Nat.add_comm]

end

/-- In the tree of a run all links agree. So no two namespaces share a name, the walk outwards from
each ends at the root, its name leads back to it, and there are as many namespaces as different
parts of the registered paths. -/
theorem linked_ofRegistrations (registrations : List (Registration α)) :
    Linked (ofRegistrations registrations) ∧
    (∀ id < (ofRegistrations registrations).size, ∀ other < (ofRegistrations registrations).size,
      (ofRegistrations registrations).name id = (ofRegistrations registrations).name other →
        id = other) ∧
    (∀ id < (ofRegistrations registrations).size,
      ((ofRegistrations registrations).enclosing id).getLast? = some root) ∧
    (∀ id < (ofRegistrations registrations).size,
      (ofRegistrations registrations).package? ((ofRegistrations registrations).name id) =
        some id) ∧
    (ofRegistrations registrations).size = 1 + (registeredPaths registrations).card := by
  obtain ⟨paths, hpaths, hmem⟩ := exists_represents registrations
  have hfree := dotFree_of_mem hmem
  have hroot := rooted_of_mem hmem
  have hlinked := hpaths.linked hfree hroot
  refine ⟨hlinked, ?_, fun id hid => hlinked.getLast?_enclosing hid,
    fun id hid => hpaths.package?_name hfree hroot hid, hpaths.size_eq_card hmem⟩
  intro id hid other hother hname
  have hback := hpaths.package?_name hfree hroot hid
  rw [hname, hpaths.package?_name hfree hroot hother] at hback
  exact (Option.some.inj hback).symm

end Namespace.Tree

end TopicPlugin
