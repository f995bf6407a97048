import Mathlib.Data.List.Dedup
import Mathlib.Data.List.Forall2
import TopicPlugin.Namespace.Listing
import TopicPlugin.Proofs.Namespace.Declarations
import TopicPlugin.Proofs.Namespace.Linkage
import TopicPlugin.Proofs.Namespace.RegistrationOrder
import TopicPlugin.Proofs.Text.ByteOrder

/-!
# What the listings of a tree hold

The arena holds the namespaces in the order of their creation, and each of them its short names in
an order of its own. A listing goes through all of it and sorts what it has met. It holds the name
of every key that was registered, or of every namespace below the root, once and in the order of
bytes; so it says what was registered and nothing about the order in which that happened.

Two keys have different names as long as no short name holds a dot. With dots a short name can spell
the end of a package, and then the listing of types has one name twice.
-/

namespace TopicPlugin.Namespace

open Dotted

variable {α : Type}

theorem eq_of_perm_of_pairwise {names others : List String} (h : names.Perm others)
    (hnames : names.Pairwise (· ≤ ·)) (hothers : others.Pairwise (· ≤ ·)) : names = others :=
  h.eq_of_pairwise (fun _ _ _ _ hle hge => String.le_antisymm hle hge) hnames hothers

theorem sortNames_of_perm {names sorted : List String} (h : names.Perm sorted)
    (hsorted : sorted.Pairwise (· ≤ ·)) : sortNames names = sorted :=
  eq_of_perm_of_pairwise ((sortNames_perm names).trans h) (pairwise_sortNames names) hsorted

theorem sortNames_bytes (names : List String) :
    (sortNames names).Pairwise fun a b => ¬Text.BytesBefore b a :=
  (pairwise_sortNames names).imp fun hle hbefore => hle (Text.bytesBefore_iff.mp hbefore)

theorem sortNames_bytes_of_nodup {names : List String} (h : names.Nodup) :
    (sortNames names).Pairwise Text.BytesBefore := by
  have hne : (sortNames names).Pairwise (· ≠ ·) := (sortNames_perm names).nodup_iff.mpr h
  refine ((pairwise_sortNames names).and hne).imp fun {a b} hab => ?_
  obtain ⟨hle, hab⟩ := hab
  refine Text.bytesBefore_iff.mpr (Decidable.byContradiction fun hnot => ?_)
  exact hab (String.le_antisymm hle hnot)

/-- The name in the listing of types: a dot before every segment and before the short name. -/
def typeName (key : List String × String) : String := qualifiedName (key.1 ++ [key.2])

/-- What the node of a path shows: the name and whether it is the root, and under which short names
something was registered there. -/
structure Node.StandsFor (registrations : List (Registration α)) (node : Node α)
    (path : List String) : Prop where
  name_eq : node.name = qualifiedName path
  isSome_parent_iff : node.parent.isSome = true ↔ path ≠ []
  mem_names_iff : ∀ short, short ∈ node.types.names ↔ (path, short) ∈ registrations.map (·.key)

namespace Node.StandsFor

variable {registrations : List (Registration α)} {node : Node α} {path : List String}

theorem typeNames_eq (h : node.StandsFor registrations path) :
    node.typeNames = (node.types.names.map (Prod.mk path)).map typeName := by
  rw [Node.typeNames, h.name_eq, List.map_map]
  exact List.map_congr_left fun short _ => (qualifiedName_concat path short).symm

theorem mem_keys_iff (h : node.StandsFor registrations path) (key : List String × String) :
    key ∈ node.types.names.map (Prod.mk path) ↔
      key.1 = path ∧ key ∈ registrations.map (·.key) := by
  obtain ⟨outer, short⟩ := key
  constructor
  · intro hin
    obtain ⟨_, hshort, hsame⟩ := List.mem_map.mp hin
    obtain ⟨rfl, rfl⟩ := Prod.mk.inj hsame
    exact ⟨rfl, (h.mem_names_iff _).mp hshort⟩
  · rintro ⟨rfl, hkey⟩
    exact List.mem_map_of_mem ((h.mem_names_iff short).mpr hkey)

end Node.StandsFor

namespace Tree

theorem isSome_lastDeclaration?_iff {registrations : List (Registration α)} {path : List String}
    {short : String} :
    (lastDeclaration? registrations path short).isSome = true ↔
      (path, short) ∈ registrations.map (·.key) := by
  constructor
  · intro hsome
    obtain ⟨declared, hdeclared⟩ := Option.isSome_iff_exists.mp hsome
    obtain ⟨r, hr, rfl, rfl, -⟩ := mem_of_lastDeclaration? hdeclared
    exact List.mem_map_of_mem hr
  · intro hin
    obtain ⟨r, hr, hkey⟩ := List.mem_map.mp hin
    obtain ⟨rfl, rfl⟩ := Prod.mk.inj hkey
    exact Option.isSome_iff_exists.mpr (exists_lastDeclaration? hr)

theorem standsFor {registrations : List (Registration α)} {paths : List (List String)}
    (h : Represents (ofRegistrations registrations) paths) {id : Nat} {node : Node α}
    {path : List String} (hnode : (ofRegistrations registrations).nodes[id]? = some node)
    (hp : paths[id]? = some path) : node.StandsFor registrations path := by
  refine ⟨?_, ?_, fun short => ?_⟩
  · have hname := h.name_eq hp
    rwa [name, hnode] at hname
  · have hparent : (ofRegistrations registrations).parent? id = node.parent := by
      rw [parent?, hnode, Option.bind_some]
    rw [← hparent]
    rcases path.eq_nil_or_concat' with rfl | ⟨outer, segment, rfl⟩
    · rw [(h.root_iff id).mp hp, h.parent_root]
      simp
    · obtain ⟨parent, hsome, -⟩ := h.parent_concat hp
      simp [hsome]
  · have htype : (ofRegistrations registrations).type? id short = node.types.find? short := by
      rw [type?, hnode, Option.bind_some]
    have hfind : (ofRegistrations registrations).find? path = some id :=
      (h.find?_eq_some_iff path id).mpr hp
    rw [Table.mem_names_iff, ← htype, ← declaration?_of_find? hfind,
      declaration?_ofRegistrations, isSome_lastDeclaration?_iff]

/-- The nodes stand for the paths of the tree, one by one. -/
theorem forall₂_nodes {registrations : List (Registration α)} {paths : List (List String)}
    (h : Represents (ofRegistrations registrations) paths) :
    List.Forall₂ (Node.StandsFor registrations) (ofRegistrations registrations).nodes.toList
      paths := by
  refine List.forall₂_iff_get.mpr ⟨h.size_eq, fun id hid hin => ?_⟩
  refine standsFor h ?_ (List.getElem?_eq_getElem hin)
  rw [← Array.getElem?_toList]
  exact List.getElem?_eq_getElem hid

section

variable {registrations : List (Registration α)} {nodes : List (Node α)}
  {paths : List (List String)} (h : List.Forall₂ (Node.StandsFor registrations) nodes paths)

include h

/-- The nodes of different paths bind different keys, and together all that are under the paths. -/
theorem exists_keys_of_nodes (hnodup : paths.Nodup) :
    ∃ keys : List (List String × String), keys.Nodup ∧
      (∀ key, key ∈ keys ↔ key.1 ∈ paths ∧ key ∈ registrations.map (·.key)) ∧
      nodes.flatMap (·.typeNames) = keys.map typeName := by
  induction h with
  | nil => exact ⟨[], List.nodup_nil, by simp, rfl⟩
  | @cons node path nodes paths hnode _ ih =>
    obtain ⟨hpath, hrest⟩ := List.nodup_cons.mp hnodup
    obtain ⟨keys, hkeys, hmem, hnames⟩ := ih hrest
    refine ⟨node.types.names.map (Prod.mk path) ++ keys, ?_, fun key => ?_, ?_⟩
    · have hown : (node.types.names.map (Prod.mk path)).Nodup :=
        node.types.nodup_names.map (Prod.mk_right_injective path)
      refine List.nodup_append'.mpr ⟨hown, hkeys, fun key hin hkey => hpath ?_⟩
      obtain ⟨rfl, -⟩ := (hnode.mem_keys_iff key).mp hin
      exact ((hmem key).mp hkey).1
    · rw [List.mem_append, hnode.mem_keys_iff, hmem, List.mem_cons, or_and_right]
    · rw [List.flatMap_cons, hnames, List.map_append, hnode.typeNames_eq]

theorem names_of_nodes :
    (nodes.filter (·.parent.isSome)).map (·.name) = (paths.filter (· ≠ [])).map qualifiedName := by
  induction h with
  | nil => rfl
  | @cons node path nodes paths hnode _ ih =>
    have hparent := hnode.isSome_parent_iff
    by_cases hnil : path = []
    · rw [List.filter_cons_of_neg (by simp [hparent, hnil]),
        List.filter_cons_of_neg (by simp [hnil]), ih]
    · rw [List.filter_cons_of_pos (by simp [hparent, hnil]),
        List.filter_cons_of_pos (by simp [hnil]), List.map_cons, List.map_cons, ih, hnode.name_eq]

end

theorem typeNames_perm (registrations : List (Registration α)) :
    (ofRegistrations registrations).typeNames.Perm
      ((registrations.map (·.key)).dedup.map typeName) := by
  obtain ⟨paths, hpaths, hmem⟩ := exists_represents registrations
  obtain ⟨keys, hkeys, hin, hnames⟩ := exists_keys_of_nodes (forall₂_nodes hpaths) hpaths.nodup
  have hall : keys.Perm (registrations.map (·.key)).dedup := by
    refine (List.perm_ext_iff_of_nodup hkeys (List.nodup_dedup _)).mpr fun key => ?_
    rw [hin, List.mem_dedup, and_iff_right_iff_imp]
    intro hkey
    obtain ⟨r, hr, rfl⟩ := List.mem_map.mp hkey
    exact (hmem _).mpr (Or.inr ⟨r, hr, List.prefix_rfl⟩)
  refine (sortNames_perm _).trans ?_
  rw [hnames]
  exact hall.map typeName

theorem typeNames_of_perm {registrations others : List (Registration α)}
    (h : registrations.Perm others) :
    (ofRegistrations registrations).typeNames = (ofRegistrations others).typeNames := by
  have hkeys : ((registrations.map (·.key)).dedup.map typeName).Perm
      ((others.map (·.key)).dedup.map typeName) := (h.map (·.key)).dedup.map typeName
  exact eq_of_perm_of_pairwise
    ((typeNames_perm registrations).trans (hkeys.trans (typeNames_perm others).symm))
    (pairwise_sortNames _) (pairwise_sortNames _)

/-- Without a dot in the short names the name of a key spells the key. -/
theorem nodup_typeNames {registrations : List (Registration α)}
    (h : ∀ r ∈ registrations, '.' ∉ r.short.toList) :
    (ofRegistrations registrations).typeNames.Nodup := by
  have hfree : ∀ key ∈ (registrations.map (·.key)).dedup, DotFree (key.1 ++ [key.2]) := by
    intro key hkey segment hs
    obtain ⟨r, hr, rfl⟩ := List.mem_map.mp (List.mem_dedup.mp hkey)
    rcases List.mem_append.mp hs with hin | hin
    · exact dotFree_namespacePath r.package segment hin
    · obtain rfl := List.mem_singleton.mp hin
      exact h r hr
  refine (typeNames_perm registrations).nodup_iff.mpr ?_
  refine (List.nodup_dedup _).map_on fun key hkey other hother hname => ?_
  have hspelled := qualifiedName_inj (hfree key hkey) (hfree other hother) hname
  obtain ⟨hpath, hshort⟩ := List.append_singleton_inj.mp hspelled
  exact Prod.ext hpath hshort

theorem namespaceNames_bytes (registrations : List (Registration α)) :
    (ofRegistrations registrations).namespaceNames.Pairwise Text.BytesBefore := by
  obtain ⟨paths, hpaths, hmem⟩ := exists_represents registrations
  refine sortNames_bytes_of_nodup ?_
  rw [names_of_nodes (forall₂_nodes hpaths)]
  refine (hpaths.nodup.filter _).map_on fun path hp other ho hname => ?_
  have hfree : DotFree path := dotFree_of_mem hmem path (List.mem_filter.mp hp).1
  have hfree' : DotFree other := dotFree_of_mem hmem other (List.mem_filter.mp ho).1
  exact qualifiedName_inj hfree hfree' hname

theorem mem_namespaceNames_iff (registrations : List (Registration α)) (name : String) :
    name ∈ (ofRegistrations registrations).namespaceNames ↔
      ∃ r ∈ registrations, ∃ path, path ≠ [] ∧ path <+: namespacePath r.package ∧
        name = qualifiedName path := by
  obtain ⟨paths, hpaths, hmem⟩ := exists_represents registrations
  rw [namespaceNames, (sortNames_perm _).mem_iff, names_of_nodes (forall₂_nodes hpaths),
    List.mem_map]
  constructor
  · rintro ⟨path, hp, rfl⟩
    obtain ⟨hin, hne⟩ := List.mem_filter.mp hp
    have hne : path ≠ [] := of_decide_eq_true hne
    obtain ⟨r, hr, hpre⟩ := ((hmem path).mp hin).resolve_left hne
    exact ⟨r, hr, path, hne, hpre, rfl⟩
  · rintro ⟨r, hr, path, hne, hpre, rfl⟩
    have hin : path ∈ paths := (hmem path).mpr (Or.inr ⟨r, hr, hpre⟩)
    exact ⟨path, List.mem_filter.mpr ⟨hin, decide_eq_true hne⟩, rfl⟩

theorem namespaceNames_of_perm {registrations others : List (Registration α)}
    (h : registrations.Perm others) :
    (ofRegistrations registrations).namespaceNames = (ofRegistrations others).namespaceNames := by
  have hnodup (run : List (Registration α)) : (ofRegistrations run).namespaceNames.Nodup := by
    refine (namespaceNames_bytes run).imp fun hbefore heq => ?_
    exact String.lt_irrefl _ (Text.bytesBefore_iff.mp (heq ▸ hbefore))
  refine eq_of_perm_of_pairwise ?_ (pairwise_sortNames _) (pairwise_sortNames _)
  refine (List.perm_ext_iff_of_nodup (hnodup _) (hnodup _)).mpr fun name => ?_
  simp only [mem_namespaceNames_iff, h.mem_iff]

/-- The listings of a run are exact. That of the types is in the order of bytes and has one entry
for every different key that was registered; that of the namespaces is strictly in this order and
has the names of the registered paths and of all that begin them, without the root's. Neither
depends on the order of the registrations, and no two types share a name unless a short name holds a
dot. -/
theorem listings_exact (registrations : List (Registration α)) :
    (ofRegistrations registrations).typeNames.Pairwise (fun a b => ¬Text.BytesBefore b a) ∧
    (ofRegistrations registrations).typeNames.Perm
      ((registrations.map (·.key)).dedup.map fun key => qualifiedName (key.1 ++ [key.2])) ∧
    (ofRegistrations registrations).namespaceNames.Pairwise Text.BytesBefore ∧
    (∀ name, name ∈ (ofRegistrations registrations).namespaceNames ↔
      ∃ r ∈ registrations, ∃ path, path ≠ [] ∧ path <+: namespacePath r.package ∧
        name = qualifiedName path) ∧
    (∀ others, registrations.Perm others →
      (ofRegistrations registrations).typeNames = (ofRegistrations others).typeNames ∧
      (ofRegistrations registrations).namespaceNames = (ofRegistrations others).namespaceNames) ∧
    ((∀ r ∈ registrations, '.' ∉ r.short.toList) →
      (ofRegistrations registrations).typeNames.Nodup) :=
  ⟨sortNames_bytes _, typeNames_perm registrations, namespaceNames_bytes registrations,
    mem_namespaceNames_iff registrations,
    fun _ h => ⟨typeNames_of_perm h, namespaceNames_of_perm h⟩, nodup_typeNames⟩

/-- Two registrations of one key, by two spellings of its package, between those of two others. -/
def repeatedRegistrations : List (Registration Nat) :=
  [⟨some "b", "M", 0⟩, ⟨some "a.b", "M", 1⟩, ⟨none, "M", 2⟩, ⟨some ".a.b", "M", 3⟩]

theorem listings_exact_repeated :
    (∀ r ∈ repeatedRegistrations, '.' ∉ r.short.toList) ∧
      (ofRegistrations repeatedRegistrations).typeNames = [".M", ".a.b.M", ".b.M"] ∧
      (ofRegistrations repeatedRegistrations).typeNames.Nodup ∧
      (ofRegistrations repeatedRegistrations.reverse).typeNames = [".M", ".a.b.M", ".b.M"] ∧
      (ofRegistrations repeatedRegistrations.reverse).namespaceNames = [".a", ".a.b", ".b"] := by
  have hfree : ∀ r ∈ repeatedRegistrations, '.' ∉ r.short.toList := by decide +kernel
  have htypes : (ofRegistrations repeatedRegistrations).typeNames = [".M", ".a.b.M", ".b.M"] :=
    sortNames_of_perm (by decide +kernel) (by decide +kernel)
  have hnames : (ofRegistrations repeatedRegistrations).namespaceNames = [".a", ".a.b", ".b"] :=
    sortNames_of_perm (by decide +kernel) (by decide +kernel)
  obtain ⟨-, -, -, -, horder, hnodup⟩ := listings_exact repeatedRegistrations
  obtain ⟨htypes', hnames'⟩ := horder _ (List.reverse_perm _).symm
  exact ⟨hfree, htypes, hnodup hfree, htypes' ▸ htypes, hnames' ▸ hnames⟩

/-- A dotted short name can spell the end of a package. -/
example : (ofRegistrations [⟨some "a", "b.M", 0⟩, ⟨some "a.b", "M", 1⟩]).typeNames =
    [".a.b.M", ".a.b.M"] := by
  exact sortNames_of_perm (by decide +kernel) (by decide +kernel)

end Tree

end TopicPlugin.Namespace
