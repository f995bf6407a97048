import Mathlib.Data.List.Basic
import TopicPlugin.Proofs.Dotted.QualifiedName
import TopicPlugin.Proofs.Namespace.Growth

/-!
# The paths of a tree's namespaces

A tree is represented by the list of the paths of its namespaces, in the order of their creation.
The relation says that indices, parents, children and qualified names all describe these paths.
Growing a tree only appends to the list, so an index means the same path for ever. Which types a
namespace binds is no part of the relation.
-/

namespace TopicPlugin.Namespace.Tree

open TopicPlugin.Dotted

variable {α : Type}

structure Represents (t : Tree α) (paths : List (List String)) : Prop where
  size_eq : t.size = paths.length
  root_iff : ∀ id, paths[id]? = some [] ↔ id = root
  name_eq : ∀ {id path}, paths[id]? = some path → t.name id = qualifiedName path
  parent_root : t.parent? root = none
  parent_concat : ∀ {id path segment}, paths[id]? = some (path ++ [segment]) →
    ∃ parent, t.parent? id = some parent ∧ paths[parent]? = some path
  child_iff : ∀ {id path}, paths[id]? = some path → ∀ segment child,
    t.child? id segment = some child ↔ paths[child]? = some (path ++ [segment])

theorem getElem?_concat_eq_some_iff (paths : List (List String)) (last path : List String)
    (id : Nat) :
    (paths ++ [last])[id]? = some path ↔
      paths[id]? = some path ∨ (id = paths.length ∧ last = path) := by
  rcases Nat.lt_trichotomy id paths.length with h | h | h
  · rw [List.getElem?_append_left h]
    simp [Nat.ne_of_lt h]
  · subst h
    simp
  · rw [List.getElem?_eq_none (by simp; omega), List.getElem?_eq_none (by omega)]
    simp [Nat.ne_of_gt h]

theorem represents_empty : Represents (empty : Tree α) [[]] := by
  constructor
  · rfl
  · intro id
    cases id <;> simp [root]
  · intro id path h
    cases id with
    | zero =>
      obtain rfl : [] = path := by simpa using h
      rfl
    | succ id => simp at h
  · rfl
  · intro id path segment h
    cases id <;> simp at h
  · intro id path h segment child
    rw [child?_empty]
    cases child <;> simp

namespace Represents

variable {t : Tree α} {paths : List (List String)}

theorem lt_size (h : Represents t paths) {id : Nat} {path : List String}
    (hp : paths[id]? = some path) : id < t.size := by
  rw [h.size_eq]
  exact (List.getElem?_eq_some_iff.mp hp).1

theorem exists_path (h : Represents t paths) {id : Nat} (hid : id < t.size) :
    ∃ path, paths[id]? = some path := by
  rw [h.size_eq] at hid
  exact ⟨paths[id], List.getElem?_eq_getElem hid⟩

/-- Every namespace around a namespace is there. -/
theorem exists_outer (h : Represents t paths) {id : Nat} {path rest : List String}
    (hp : paths[id]? = some (path ++ rest)) : ∃ outer : Nat, paths[outer]? = some path := by
  induction rest using List.reverseRecOn generalizing id with
  | nil => exact ⟨id, by simpa using hp⟩
  | append_singleton rest segment ih =>
    rw [← List.append_assoc] at hp
    obtain ⟨parent, -, hparent⟩ := h.parent_concat hp
    exact ih hparent

/-- A path leads to one namespace only. -/
theorem id_unique (h : Represents t paths) {id other : Nat} {path : List String}
    (hp : paths[id]? = some path) (ho : paths[other]? = some path) : id = other := by
  rcases path.eq_nil_or_concat' with rfl | ⟨outer, segment, rfl⟩
  · rw [(h.root_iff id).mp hp, (h.root_iff other).mp ho]
  · obtain ⟨parent, -, hparent⟩ := h.parent_concat hp
    have hid := (h.child_iff hparent segment id).mpr hp
    have hother := (h.child_iff hparent segment other).mpr ho
    exact Option.some.inj (hid.symm.trans hother)

/-- Walking down from a namespace appends to its path. -/
theorem walk_eq_some_iff (h : Represents t paths) {id found : Nat} {path rest : List String}
    (hp : paths[id]? = some path) :
    rest.foldlM t.child? id = some found ↔ paths[found]? = some (path ++ rest) := by
  induction rest generalizing id path with
  | nil =>
    rw [List.foldlM_nil, List.append_nil]
    constructor
    · intro hid
      obtain rfl : id = found := Option.some.inj hid
      exact hp
    · intro hf
      rw [h.id_unique hp hf]
      rfl
  | cons segment rest ih =>
    have hassoc : path ++ segment :: rest = (path ++ [segment]) ++ rest := by simp
    rw [List.foldlM_cons]
    change (t.child? id segment).bind _ = some found ↔ _
    rw [Option.bind_eq_some_iff]
    constructor
    · intro hwalk
      obtain ⟨child, hc, hf⟩ := hwalk
      have hchild := (h.child_iff hp segment child).mp hc
      rw [hassoc]
      exact (ih hchild).mp hf
    · intro hf
      rw [hassoc] at hf
      obtain ⟨child, hc⟩ := h.exists_outer hf
      exact ⟨child, (h.child_iff hp segment child).mpr hc, (ih hc).mpr hf⟩

theorem root_path (h : Represents t paths) : paths[root]? = some [] := (h.root_iff root).mpr rfl

theorem find?_eq_some_iff (h : Represents t paths) (path : List String) (id : Nat) :
    t.find? path = some id ↔ paths[id]? = some path :=
  h.walk_eq_some_iff h.root_path

theorem find?_isSome_iff (h : Represents t paths) (path : List String) :
    (t.find? path).isSome ↔ path ∈ paths := by
  rw [Option.isSome_iff_exists, List.mem_iff_getElem?]
  exact exists_congr (h.find?_eq_some_iff path)

/-- A namespace without a child of some name has no path that goes on with this name. -/
theorem concat_notMem (h : Represents t paths) {id : Nat} {path : List String}
    {segment : String} (hp : paths[id]? = some path) (hc : t.child? id segment = none) :
    path ++ [segment] ∉ paths := by
  intro hin
  obtain ⟨child, hchild⟩ := List.mem_iff_getElem?.mp hin
  rw [(h.child_iff hp segment child).mpr hchild] at hc
  cases hc

section

variable {id : Nat} {path : List String} {segment : String}

theorem name_addChild (h : Represents t paths) (hp : paths[id]? = some path) {other : Nat}
    {q : List String} (hq : (paths ++ [path ++ [segment]])[other]? = some q) :
    (t.addChild id segment).name other = qualifiedName q := by
  have hlen := h.size_eq
  rw [Tree.name_addChild (h.lt_size hp)]
  rcases (getElem?_concat_eq_some_iff ..).mp hq with ho | ⟨ho, rfl⟩
  · have hlt := h.lt_size ho
    rw [if_neg (by omega), h.name_eq ho]
  · rw [if_pos (by omega), qualifiedName_concat, h.name_eq hp]

theorem parent?_addChild (h : Represents t paths) (hp : paths[id]? = some path) {other : Nat}
    {q : List String} {s : String}
    (hq : (paths ++ [path ++ [segment]])[other]? = some (q ++ [s])) :
    ∃ parent, (t.addChild id segment).parent? other = some parent ∧
      (paths ++ [path ++ [segment]])[parent]? = some q := by
  have hlen := h.size_eq
  rw [Tree.parent?_addChild (h.lt_size hp)]
  rcases (getElem?_concat_eq_some_iff ..).mp hq with ho | ⟨ho, he⟩
  · have hlt := h.lt_size ho
    obtain ⟨parent, hparent, hq'⟩ := h.parent_concat ho
    refine ⟨parent, ?_, (getElem?_concat_eq_some_iff ..).mpr (Or.inl hq')⟩
    rw [if_neg (by omega), hparent]
  · obtain ⟨rfl, -⟩ := List.append_singleton_inj.mp he
    refine ⟨id, ?_, (getElem?_concat_eq_some_iff ..).mpr (Or.inl hp)⟩
    rw [if_pos (by omega)]

/-- The children of an old namespace stay, except that the parent gains the new one. -/
theorem child?_addChild_of_old (h : Represents t paths) (hp : paths[id]? = some path)
    (hc : t.child? id segment = none) {other : Nat} {q : List String}
    (ho : paths[other]? = some q) (s : String) (child : Nat) :
    (t.addChild id segment).child? other s = some child ↔
      (paths ++ [path ++ [segment]])[child]? = some (q ++ [s]) := by
  have hlen := h.size_eq
  rw [Tree.child?_addChild (h.lt_size hp), getElem?_concat_eq_some_iff]
  by_cases hs : other = id ∧ s = segment
  · obtain ⟨rfl, rfl⟩ := hs
    obtain rfl : path = q := Option.some.inj (hp.symm.trans ho)
    have hnew : paths[child]? ≠ some (path ++ [s]) := fun hold =>
      h.concat_notMem hp hc (List.mem_of_getElem? hold)
    rw [if_pos ⟨rfl, rfl⟩]
    simp only [hnew, false_or, and_true, Option.some.injEq]
    omega
  · rw [if_neg hs, h.child_iff ho]
    constructor
    · exact Or.inl
    · intro hchild
      rcases hchild with hold | ⟨-, he⟩
      · exact hold
      · obtain ⟨rfl, rfl⟩ := List.append_singleton_inj.mp he
        exact absurd ⟨h.id_unique ho hp, rfl⟩ hs

/-- The new namespace has no child yet, and no path goes on from its own. -/
theorem child?_addChild_of_new (h : Represents t paths) (hp : paths[id]? = some path)
    (hc : t.child? id segment = none) (s : String) (child : Nat) :
    (t.addChild id segment).child? paths.length s = some child ↔
      (paths ++ [path ++ [segment]])[child]? = some (path ++ [segment] ++ [s]) := by
  have hlen := h.size_eq
  have hid := h.lt_size hp
  rw [Tree.child?_addChild hid, if_neg (by omega), child?_eq_none (by omega),
    getElem?_concat_eq_some_iff]
  constructor
  · intro hn
    cases hn
  · intro hchild
    rcases hchild with hold | ⟨-, he⟩
    · obtain ⟨outer, houter⟩ := h.exists_outer hold
      exact absurd (List.mem_of_getElem? houter) (h.concat_notMem hp hc)
    · simp at he

theorem addChild (h : Represents t paths) (hp : paths[id]? = some path)
    (hc : t.child? id segment = none) :
    Represents (t.addChild id segment) (paths ++ [path ++ [segment]]) := by
  have hid := h.lt_size hp
  have hroot := h.lt_size h.root_path
  constructor
  · rw [size_addChild hid, List.length_append, List.length_singleton, h.size_eq]
  · intro other
    rw [getElem?_concat_eq_some_iff, h.root_iff]
    simp
  · intro other q hq
    exact h.name_addChild hp hq
  · rw [Tree.parent?_addChild hid, if_neg (by omega), h.parent_root]
  · intro other q s hq
    exact h.parent?_addChild hp hq
  · intro other q hq s child
    rcases (getElem?_concat_eq_some_iff ..).mp hq with ho | ⟨rfl, rfl⟩
    · exact h.child?_addChild_of_old hp hc ho s child
    · exact h.child?_addChild_of_new hp hc s child

end

/-- Opening a child yields the namespace one segment further down, and adds its path at most. -/
theorem openChild (h : Represents t paths) {id : Nat} {path : List String}
    (hp : paths[id]? = some path) (segment : String) :
    ∃ added, Represents (t.openChild id segment).1 (paths ++ added) ∧
      (paths ++ added)[(t.openChild id segment).2]? = some (path ++ [segment]) ∧
      ∀ q, q ∈ paths ++ added ↔ q ∈ paths ∨ q = path ++ [segment] := by
  cases hc : t.child? id segment with
  | some child =>
    have hchild := (h.child_iff hp segment child).mp hc
    refine ⟨[], ?_⟩
    rw [openChild_of_some hc, List.append_nil]
    refine ⟨h, hchild, fun q => ⟨Or.inl, ?_⟩⟩
    intro hq
    rcases hq with hold | rfl
    · exact hold
    · exact List.mem_of_getElem? hchild
  | none =>
    refine ⟨[path ++ [segment]], ?_⟩
    rw [openChild_of_none hc]
    refine ⟨h.addChild hp hc, ?_, fun q => by simp⟩
    exact (getElem?_concat_eq_some_iff ..).mpr (Or.inr ⟨h.size_eq, rfl⟩)

/-- Opening a path adds the paths on the way that were missing, and no other. -/
theorem openPath (h : Represents t paths) {id : Nat} {path : List String}
    (hp : paths[id]? = some path) (rest : List String) :
    ∃ added, Represents (t.openPath id rest).1 (paths ++ added) ∧
      (paths ++ added)[(t.openPath id rest).2]? = some (path ++ rest) ∧
      ∀ q, q ∈ paths ++ added ↔ q ∈ paths ∨ ∃ part, part <+: rest ∧ q = path ++ part := by
  induction rest generalizing t paths id path with
  | nil =>
    refine ⟨[], ?_⟩
    rw [List.append_nil, List.append_nil]
    refine ⟨h, hp, fun q => ⟨Or.inl, ?_⟩⟩
    intro hq
    rcases hq with hold | ⟨part, hpart, rfl⟩
    · exact hold
    · rw [List.prefix_nil.mp hpart, List.append_nil]
      exact List.mem_of_getElem? hp
  | cons segment rest ih =>
    obtain ⟨first, hfirst, hchild, hmem⟩ := h.openChild hp segment
    obtain ⟨others, hall, hfound, hmems⟩ := ih hfirst hchild
    refine ⟨first ++ others, ?_⟩
    rw [← List.append_assoc]
    rw [List.append_assoc path] at hfound
    refine ⟨hall, hfound, fun q => ?_⟩
    rw [hmems, hmem]
    constructor
    · intro hq
      rcases hq with (hold | rfl) | ⟨part, hpart, rfl⟩
      · exact Or.inl hold
      · exact Or.inr ⟨[segment], by simp, rfl⟩
      · exact Or.inr ⟨segment :: part, by simpa using hpart, by simp⟩
    · intro hq
      rcases hq with hold | ⟨part, hpart, rfl⟩
      · exact Or.inl (Or.inl hold)
      · cases part with
        | nil =>
          rw [List.append_nil]
          exact Or.inl (Or.inl (List.mem_of_getElem? hp))
        | cons s part =>
          obtain ⟨rfl, hrest⟩ := List.cons_prefix_cons.mp hpart
          exact Or.inr ⟨part, hrest, by simp⟩

theorem bind (h : Represents t paths) (id : Nat) (short : String) (declaration : α) :
    Represents (t.bind id short declaration) paths where
  size_eq := by rw [size_bind, h.size_eq]
  root_iff := h.root_iff
  name_eq hp := by rw [name_bind, h.name_eq hp]
  parent_root := by rw [parent?_bind, h.parent_root]
  parent_concat hp := by
    rw [parent?_bind]
    exact h.parent_concat hp
  child_iff hp segment child := by rw [child?_bind, h.child_iff hp]

/-- A registration opens the path of its package and appends what was missing of it. -/
theorem register (h : Represents t paths) (package : Option String) (short : String)
    (declaration : α) :
    ∃ added, Represents (t.register package short declaration) (paths ++ added) ∧
      ∀ q, q ∈ paths ++ added ↔ q ∈ paths ∨ q <+: namespacePath package := by
  obtain ⟨added, hadded, -, hmem⟩ := h.openPath h.root_path (namespacePath package)
  refine ⟨added, hadded.bind _ short declaration, fun q => ?_⟩
  simp [hmem]

end Represents

theorem ofRegistrations_concat (registrations : List (Registration α)) (last : Registration α) :
    ofRegistrations (registrations ++ [last]) =
      (ofRegistrations registrations).register last.package last.short last.declaration := by
  simp [ofRegistrations]

/-- Every run of registrations yields a tree of paths: those of the packages registered, and those
around them. -/
theorem exists_represents (registrations : List (Registration α)) :
    ∃ paths, Represents (ofRegistrations registrations) paths ∧
      ∀ path, path ∈ paths ↔
        path = [] ∨ ∃ r ∈ registrations, path <+: namespacePath r.package := by
  induction registrations using List.reverseRecOn with
  | nil => exact ⟨[[]], represents_empty, by simp⟩
  | append_singleton registrations last ih =>
    obtain ⟨paths, hpaths, hmem⟩ := ih
    obtain ⟨added, hadded, hmems⟩ :=
      hpaths.register last.package last.short last.declaration
    refine ⟨paths ++ added, ?_, fun path => ?_⟩
    · rw [ofRegistrations_concat]
      exact hadded
    · rw [hmems, hmem, or_assoc]
      simp [or_and_right, exists_or]

theorem dotFree_of_mem {registrations : List (Registration α)} {paths : List (List String)}
    (hmem : ∀ path, path ∈ paths ↔
      path = [] ∨ ∃ r ∈ registrations, path <+: namespacePath r.package) :
    ∀ path ∈ paths, DotFree path := by
  intro path hin
  rcases (hmem path).mp hin with rfl | ⟨r, -, hpre⟩
  · intro segment hs
    cases hs
  · exact fun segment hs => dotFree_namespacePath r.package segment (hpre.subset hs)

/-- No segment of a namespace's path holds a dot. -/
theorem dotFree_of_find? (registrations : List (Registration α)) {path : List String} {id : Nat}
    (h : (ofRegistrations registrations).find? path = some id) : DotFree path := by
  obtain ⟨paths, hpaths, hmem⟩ := exists_represents registrations
  exact dotFree_of_mem hmem path (List.mem_of_getElem? ((hpaths.find?_eq_some_iff path id).mp h))

end TopicPlugin.Namespace.Tree
