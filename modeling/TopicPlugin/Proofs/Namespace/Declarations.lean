import TopicPlugin.Proofs.Namespace.References
import TopicPlugin.Proofs.Namespace.Registration

/-!
# What can be found was registered

A namespace binds what was registered under its path and a short name, and a look-up goes on from
there through nested messages. So whatever is found is a registered declaration or stands inside
one. The other way round, a registered declaration is found by its qualified name, unless another
one has taken its place.
-/

namespace TopicPlugin.Namespace.Tree

open TopicPlugin.Dotted

theorem exists_lastDeclaration? {α : Type} {registrations : List (Registration α)}
    {r : Registration α} (h : r ∈ registrations) :
    ∃ declared, lastDeclaration? registrations (namespacePath r.package) r.short =
      some declared := by
  have hfound : (registrations.reverse.find? fun other => decide
      (namespacePath other.package = namespacePath r.package ∧ other.short = r.short)).isSome :=
    List.find?_isSome.mpr ⟨r, List.mem_reverse.mpr h, by simp⟩
  obtain ⟨last, hlast⟩ := Option.isSome_iff_exists.mp hfound
  exact ⟨last.declaration, by
    rw [lastDeclaration?, List.findRev?_eq_find?_reverse, hlast, Option.map_some]⟩

theorem exists_find?_of_mem {α : Type} {registrations : List (Registration α)}
    {r : Registration α} (h : r ∈ registrations) :
    ∃ id, (ofRegistrations registrations).find? (namespacePath r.package) = some id := by
  obtain ⟨paths, hpaths, hmem⟩ := exists_represents registrations
  have hin : namespacePath r.package ∈ paths := (hmem _).mpr (Or.inr ⟨r, h, List.prefix_rfl⟩)
  exact Option.isSome_iff_exists.mp ((hpaths.find?_isSome_iff _).mpr hin)

/-- The name of a namespace with a short name behind it resolves to what the namespace binds. -/
theorem resolve_declared (registrations : List (Registration Message)) {path : List String}
    {id : Nat} (h : (ofRegistrations registrations).find? path = some id) {short : String}
    (hdot : '.' ∉ short.toList) (scope : Nat) :
    (ofRegistrations registrations).resolve scope (qualify (qualifiedName path) short) =
      (lastDeclaration? registrations path short).map fun declared =>
        ⟨declared, qualify (qualifiedName path) short⟩ := by
  obtain ⟨paths, hpaths, -⟩ := exists_represents registrations
  have hname := hpaths.name_eq ((hpaths.find?_eq_some_iff path id).mp h)
  rw [resolve_qualify registrations h, segments_of_notMem hdot, lookUp, hname,
    ← declaration?_ofRegistrations, declaration?, h, Option.bind_some]

theorem mem_of_lastDeclaration? {α : Type} {registrations : List (Registration α)}
    {path : List String} {short : String} {declared : α}
    (h : lastDeclaration? registrations path short = some declared) :
    ∃ r ∈ registrations, namespacePath r.package = path ∧ r.short = short ∧
      r.declaration = declared := by
  rw [lastDeclaration?, List.findRev?_eq_find?_reverse] at h
  obtain ⟨r, hr, hdeclared⟩ := Option.map_eq_some_iff.mp h
  have hkey := List.find?_some hr
  rw [decide_eq_true_eq] at hkey
  exact ⟨r, List.mem_reverse.mp (List.mem_of_find?_eq_some hr), hkey.1, hkey.2, hdeclared⟩

/-- A namespace binds registered declarations only. -/
theorem mem_of_type? {α : Type} {registrations : List (Registration α)} {id : Nat}
    {short : String} {declared : α}
    (h : (ofRegistrations registrations).type? id short = some declared) :
    ∃ r ∈ registrations, r.short = short ∧ r.declaration = declared := by
  have hid : id < (ofRegistrations registrations).size := by
    by_contra hge
    rw [type?_eq_none (Nat.le_of_not_lt hge)] at h
    cases h
  obtain ⟨paths, hpaths, -⟩ := exists_represents registrations
  obtain ⟨path, hpath⟩ := hpaths.exists_path hid
  have hfind := (hpaths.find?_eq_some_iff path id).mpr hpath
  have hlast : lastDeclaration? registrations path short = some declared := by
    rw [← declaration?_ofRegistrations, declaration?, hfind, Option.bind_some, h]
  obtain ⟨r, hr, -, hshort, hdeclared⟩ := mem_of_lastDeclaration? hlast
  exact ⟨r, hr, hshort, hdeclared⟩

/-- A look-up finds registered declarations and messages inside them. -/
theorem exists_declaration_of_lookUp {registrations : List (Registration Message)} {id : Nat}
    {path : List String} {resolved : Resolved}
    (h : (ofRegistrations registrations).lookUp id path = some resolved) :
    ∃ r ∈ registrations, ∃ way, r.declaration.nestedPath? way = some resolved.message := by
  induction path generalizing id with
  | nil => cases h
  | cons segment path ih =>
    by_cases hdown : path ≠ [] ∧ ∃ child,
        (ofRegistrations registrations).child? id segment = some child
    · obtain ⟨hne, child, hchild⟩ := hdown
      rw [lookUp_of_child hchild hne] at h
      exact ih h
    · have hstop (hne : path ≠ []) : (ofRegistrations registrations).child? id segment = none := by
        by_contra hchild
        exact hdown ⟨hne, Option.ne_none_iff_exists'.mp hchild⟩
      rw [lookUp_of_no_child hstop] at h
      obtain ⟨outer, hbound, hnested⟩ := Option.bind_eq_some_iff.mp h
      obtain ⟨inner, hinner, rfl⟩ := Option.map_eq_some_iff.mp hnested
      obtain ⟨r, hr, -, hdeclared⟩ := mem_of_type? hbound
      exact ⟨r, hr, path, hdeclared ▸ hinner⟩

end TopicPlugin.Namespace.Tree
