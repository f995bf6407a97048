import TopicPlugin.Proofs.Namespace.Paths

/-!
# Registrations and the map they build

A tree answers for a path and a short name with the declaration registered last under both. The
arena, its indices and the order in which packages happen to appear do not show in these answers. A
further registration changes the answer to its own key only, and leaves every namespace that was
there with its name, its parent, its children and its other types.
-/

namespace TopicPlugin.Namespace.Tree

open TopicPlugin.Dotted

variable {α : Type}

/-- What a tree binds to a short name under a path. -/
def declaration? (t : Tree α) (path : List String) (short : String) : Option α :=
  (t.find? path).bind (t.type? · short)

/-- The declaration registered last under a path and a short name. -/
def lastDeclaration? (registrations : List (Registration α)) (path : List String)
    (short : String) : Option α :=
  (registrations.findRev? fun r => namespacePath r.package = path ∧ r.short = short).map
    (·.declaration)

/-- A namespace has the name of a path, and its parent is the namespace one segment further up. -/
structure StandsAt (t : Tree α) (id : Nat) (path : List String) : Prop where
  name_eq : t.name id = qualifiedName path
  parent_root : path = [] → t.parent? id = none
  parent_concat : ∀ outer segment, path = outer ++ [segment] →
    ∃ parent, t.parent? id = some parent ∧ t.find? outer = some parent

/-- What registering under a path and a short name leaves alone. A namespace that was there may gain
a child, but only the next one on the path, and only where it had none. -/
structure Extends (t t' : Tree α) (path : List String) (short : String) : Prop where
  name_eq : ∀ id < t.size, t'.name id = t.name id
  parent_eq : ∀ id < t.size, t'.parent? id = t.parent? id
  child_eq : ∀ id < t.size, ∀ segment, t'.child? id segment = t.child? id segment ∨
    (t.child? id segment = none ∧ ∃ outer, t.find? outer = some id ∧ outer ++ [segment] <+: path)
  type_eq : ∀ id < t.size, ∀ name, ¬(t.find? path = some id ∧ name = short) →
    t'.type? id name = t.type? id name

namespace Represents

variable {t t' : Tree α} {paths added : List (List String)}

theorem standsAt (h : Represents t paths) {id : Nat} {path : List String}
    (hf : t.find? path = some id) : StandsAt t id path := by
  have hp := (h.find?_eq_some_iff path id).mp hf
  constructor
  · exact h.name_eq hp
  · intro hnil
    rw [hnil] at hp
    rw [(h.root_iff id).mp hp, h.parent_root]
  · intro outer segment hconcat
    rw [hconcat] at hp
    obtain ⟨parent, hparent, ho⟩ := h.parent_concat hp
    exact ⟨parent, hparent, (h.find?_eq_some_iff outer parent).mpr ho⟩

theorem getElem?_of_old {id : Nat} {path : List String} (hp : paths[id]? = some path) :
    (paths ++ added)[id]? = some path := by
  have hid := (List.getElem?_eq_some_iff.mp hp).1
  rwa [List.getElem?_append_left hid]

/-- It finds the namespaces that it found before, and new ones. -/
theorem find?_of_append (h : Represents t paths) (h' : Represents t' (paths ++ added))
    (path : List String) (id : Nat) :
    t.find? path = some id ↔ id < t.size ∧ t'.find? path = some id := by
  rw [h.find?_eq_some_iff, h'.find?_eq_some_iff, h.size_eq]
  constructor
  · intro hp
    have hid := (List.getElem?_eq_some_iff.mp hp).1
    exact ⟨hid, getElem?_of_old hp⟩
  · intro hp
    obtain ⟨hid, hp'⟩ := hp
    rwa [List.getElem?_append_left hid] at hp'

theorem name_of_append (h : Represents t paths) (h' : Represents t' (paths ++ added)) {id : Nat}
    (hid : id < t.size) : t'.name id = t.name id := by
  obtain ⟨path, hp⟩ := h.exists_path hid
  rw [h'.name_eq (getElem?_of_old hp), h.name_eq hp]

theorem parent?_of_append (h : Represents t paths) (h' : Represents t' (paths ++ added))
    {id : Nat} (hid : id < t.size) : t'.parent? id = t.parent? id := by
  obtain ⟨path, hp⟩ := h.exists_path hid
  rcases path.eq_nil_or_concat' with rfl | ⟨outer, segment, rfl⟩
  · rw [(h.root_iff id).mp hp, h'.parent_root, h.parent_root]
  · obtain ⟨parent, hpar, ho⟩ := h.parent_concat hp
    obtain ⟨parent', hpar', ho'⟩ := h'.parent_concat (getElem?_of_old hp)
    have heq : parent = parent' := h'.id_unique (getElem?_of_old ho) ho'
    rw [hpar, hpar', heq]

theorem child?_of_append (h : Represents t paths) (h' : Represents t' (paths ++ added))
    {id : Nat} (hid : id < t.size) (segment : String) :
    t'.child? id segment = t.child? id segment ∨
      (t.child? id segment = none ∧
        ∃ outer, t.find? outer = some id ∧ outer ++ [segment] ∈ added) := by
  obtain ⟨path, hp⟩ := h.exists_path hid
  have hp' : (paths ++ added)[id]? = some path := getElem?_of_old hp
  cases hc : t.child? id segment with
  | some child =>
    left
    have hchild := (h.child_iff hp segment child).mp hc
    exact (h'.child_iff hp' segment child).mpr (getElem?_of_old hchild)
  | none =>
    cases hc' : t'.child? id segment with
    | none => exact Or.inl rfl
    | some child =>
      right
      refine ⟨rfl, path, (h.find?_eq_some_iff path id).mpr hp, ?_⟩
      have hnew := List.mem_of_getElem? ((h'.child_iff hp' segment child).mp hc')
      rcases List.mem_append.mp hnew with hold | hin
      · exact absurd hold (h.concat_notMem hp hc)
      · exact hin

/-- Before it grew, the tree answered with what it bound at an index that was there, if any. -/
theorem declaration?_of_append (h : Represents t paths) (h' : Represents t' (paths ++ added))
    {path : List String} {id : Nat} (hf : t'.find? path = some id) (short : String) :
    t.declaration? path short = t.type? id short := by
  unfold declaration?
  have hold := h.find?_of_append h' path
  by_cases hid : id < t.size
  · rw [(hold id).mpr ⟨hid, hf⟩, Option.bind_some]
  · cases ho : t.find? path with
    | none => rw [Option.bind_none, type?_eq_none (Nat.le_of_not_lt hid)]
    | some other =>
      obtain ⟨hlt, hfo⟩ := (hold other).mp ho
      have heq : id = other := Option.some.inj (hf.symm.trans hfo)
      omega

/-- The namespace of the package binds the short name, and no other binding changes. -/
theorem type?_register (h : Represents t paths) (package : Option String) (short : String)
    (declaration : α) (id : Nat) (name : String) :
    (t.register package short declaration).type? id name =
      if (t.register package short declaration).find? (namespacePath package) = some id ∧
        name = short then some declaration else t.type? id name := by
  obtain ⟨added, hadded, hopened, -⟩ := h.openPath h.root_path (namespacePath package)
  have hbound := hadded.bind (t.openPath root (namespacePath package)).2 short declaration
  have hid : (t.register package short declaration).find? (namespacePath package) = some id ↔
      id = (t.openPath root (namespacePath package)).2 := by
    change Tree.find? (Tree.bind _ _ short declaration) _ = some id ↔ _
    rw [hbound.find?_eq_some_iff]
    constructor
    · intro hp
      exact hadded.id_unique hp hopened
    · intro he
      rw [he]
      exact hopened
  rw [if_congr (and_congr_left' hid) rfl rfl]
  change Tree.type? (Tree.bind _ _ short declaration) id name = _
  rw [type?_bind short declaration (hadded.lt_size hopened), type?_openPath]

/-- One registration updates the map at its own key. -/
theorem declaration?_register (h : Represents t paths) (package : Option String)
    (short : String) (declaration : α) (path : List String) (name : String) :
    (t.register package short declaration).declaration? path name =
      if path = namespacePath package ∧ name = short then some declaration
      else t.declaration? path name := by
  obtain ⟨added, hadded, hmem⟩ := h.register package short declaration
  cases hf : (t.register package short declaration).find? path with
  | none =>
    -- the path of the package has been opened, so it is another one, and it was not there before
    have hne : path ≠ namespacePath package := by
      intro he
      have hopened : path ∈ paths ++ added := (hmem path).mpr (Or.inr (he ▸ List.prefix_rfl))
      have hin := (hadded.find?_isSome_iff path).mpr hopened
      rw [hf] at hin
      cases hin
    have hnone : t.find? path = none := by
      cases ho : t.find? path with
      | none => rfl
      | some id =>
        rw [((h.find?_of_append hadded path id).mp ho).2] at hf
        cases hf
    rw [if_neg (fun hc => hne hc.1), Tree.declaration?, Tree.declaration?, hf, hnone,
      Option.bind_none, Option.bind_none]
  | some id =>
    have hp := (hadded.find?_eq_some_iff path id).mp hf
    have hkey : (t.register package short declaration).find? (namespacePath package) = some id ↔
        path = namespacePath package := by
      rw [hadded.find?_eq_some_iff, hp, Option.some.injEq]
    rw [h.declaration?_of_append hadded hf, Tree.declaration?, hf, Option.bind_some,
      h.type?_register, if_congr (and_congr_left' hkey) rfl rfl]

theorem extends_register (h : Represents t paths) (package : Option String) (short : String)
    (declaration : α) :
    Extends t (t.register package short declaration) (namespacePath package) short := by
  obtain ⟨added, hadded, hmem⟩ := h.register package short declaration
  constructor
  · intro id hid
    exact h.name_of_append hadded hid
  · intro id hid
    exact h.parent?_of_append hadded hid
  · intro id hid segment
    rcases h.child?_of_append hadded hid segment with hsame | ⟨hc, outer, ho, hin⟩
    · exact Or.inl hsame
    · right
      refine ⟨hc, outer, ho, ?_⟩
      rcases (hmem (outer ++ [segment])).mp (List.mem_append_right paths hin) with hold | hpre
      · have hp := (h.find?_eq_some_iff outer id).mp ho
        exact absurd hold (h.concat_notMem hp hc)
      · exact hpre
  · intro id hid name hne
    rw [h.type?_register, if_neg]
    intro hkey
    obtain ⟨hf, hn⟩ := hkey
    exact hne ⟨(h.find?_of_append hadded _ id).mpr ⟨hid, hf⟩, hn⟩

end Represents

theorem lastDeclaration?_concat (registrations : List (Registration α)) (last : Registration α)
    (path : List String) (short : String) :
    lastDeclaration? (registrations ++ [last]) path short =
      if path = namespacePath last.package ∧ short = last.short then some last.declaration
      else lastDeclaration? registrations path short := by
  unfold lastDeclaration?
  rw [List.findRev?_eq_find?_reverse, List.findRev?_eq_find?_reverse, List.reverse_append,
    List.reverse_singleton, List.singleton_append, List.find?_cons]
  by_cases hkey : path = namespacePath last.package ∧ short = last.short
  · obtain ⟨rfl, rfl⟩ := hkey
    simp
  · rw [if_neg hkey]
    have hlast : ¬(namespacePath last.package = path ∧ last.short = short) := by
      intro hsame
      exact hkey ⟨hsame.1.symm, hsame.2.symm⟩
    simp [hlast]

/-- The tree of a run answers with the declaration registered last. -/
theorem declaration?_ofRegistrations (registrations : List (Registration α))
    (path : List String) (short : String) :
    (ofRegistrations registrations).declaration? path short =
      lastDeclaration? registrations path short := by
  induction registrations using List.reverseRecOn with
  | nil =>
    change ((empty : Tree α).find? path).bind _ = none
    cases (empty : Tree α).find? path with
    | none => rfl
    | some id => exact type?_empty id short
  | append_singleton registrations last ih =>
    obtain ⟨paths, hpaths, -⟩ := exists_represents registrations
    rw [ofRegistrations_concat, hpaths.declaration?_register, lastDeclaration?_concat, ih]

/-- A run of registrations is a map from paths and short names to declarations. Packages are found
exactly if they are around a registered one, each stands where its path says, and each binds what
was registered last. A further registration changes its own key and leaves all else as it was. -/
theorem ofRegistrations_refines_map (registrations : List (Registration α)) :
    (∀ package, ((ofRegistrations registrations).package? package).isSome ↔
      packageSegments package = [] ∨
        ∃ r ∈ registrations, packageSegments package <+: namespacePath r.package) ∧
    (∀ package id, (ofRegistrations registrations).package? package = some id →
      StandsAt (ofRegistrations registrations) id (packageSegments package) ∧
      ∀ short, (ofRegistrations registrations).type? id short =
        lastDeclaration? registrations (packageSegments package) short) ∧
    ∀ last : Registration α,
      (∀ path short, (ofRegistrations (registrations ++ [last])).declaration? path short =
        if path = namespacePath last.package ∧ short = last.short then some last.declaration
        else (ofRegistrations registrations).declaration? path short) ∧
      Extends (ofRegistrations registrations) (ofRegistrations (registrations ++ [last]))
        (namespacePath last.package) last.short := by
  obtain ⟨paths, hpaths, hmem⟩ := exists_represents registrations
  refine ⟨fun package => ?_, fun package id hf => ⟨hpaths.standsAt hf, fun short => ?_⟩,
    fun last => ?_⟩
  · exact (hpaths.find?_isSome_iff _).trans (hmem _)
  · rw [← declaration?_ofRegistrations]
    change Tree.find? _ _ = some id at hf
    rw [declaration?, hf, Option.bind_some]
  · rw [ofRegistrations_concat]
    exact ⟨hpaths.declaration?_register _ _ _, hpaths.extends_register _ _ _⟩

end TopicPlugin.Namespace.Tree
