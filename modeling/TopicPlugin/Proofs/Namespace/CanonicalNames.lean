import TopicPlugin.Proofs.Namespace.References

/-!
# Names that mean the same everywhere

The qualified name of a resolved message is an absolute reference that leads back to the message,
from any scope. For a message nested in the one that a reference is written in, the name is built
without the tree, and the tree agrees with it as long as it binds the outer message and has no
namespace of its name in the way.
-/

namespace TopicPlugin.Namespace.Tree

open TopicPlugin.Dotted

/-- The name of a resolved message is absolute and resolves to it from any scope. -/
structure Canonical (t : Tree Message) (resolved : Resolved) : Prop where
  exists_eq_dot : ∃ rest, resolved.name = "." ++ rest
  resolve_eq : ∀ scope, t.resolve scope resolved.name = some resolved

section

variable (registrations : List (Registration Message)) {path : List String} {scope : Nat}

theorem canonical_of_absolute {rest : String} {resolved : Resolved}
    (h : (ofRegistrations registrations).lookUp root (segments rest) = some resolved) :
    Canonical (ofRegistrations registrations) resolved := by
  have hresolve (any : Nat) :
      (ofRegistrations registrations).resolve any ("." ++ rest) = some resolved := by
    rw [resolve_of_absolute (ofString?_dot rest), h]
  have hname := name_of_resolve_dot registrations (hresolve root)
  refine ⟨⟨rest, hname⟩, fun any => ?_⟩
  rw [hname]
  exact hresolve any

theorem canonical_of_relative
    (hscope : (ofRegistrations registrations).find? path = some scope) {reference : String}
    (hne : reference ≠ "") (hrel : absolute? reference = none) {resolved : Resolved}
    (h : (ofRegistrations registrations).resolve scope reference = some resolved) :
    Canonical (ofRegistrations registrations) resolved := by
  rw [resolve_eq_findSome? registrations hscope hne hrel] at h
  obtain ⟨candidate, hc, hresolved⟩ := List.exists_of_findSome?_eq_some h
  have hname := name_of_resolve_candidate registrations hc hresolved
  constructor
  · obtain ⟨outer, -, rfl⟩ := List.mem_map.mp hc
    rw [hname]
    exact Dotted.exists_eq_dot outer reference
  · intro any
    rw [hname, resolve_candidate registrations hscope hc, hresolved]

/-- A message nested in one that the tree binds, under the name that the way down to it spells. -/
theorem canonical_of_nested (hscope : (ofRegistrations registrations).find? path = some scope)
    {message : Message} (hdot : '.' ∉ message.name.toList)
    (hbound : (ofRegistrations registrations).type? scope message.name = some message)
    (hchild : (ofRegistrations registrations).child? scope message.name = none)
    {way : List String} (hway : DotFree way) {resolved : Resolved}
    (h : descend message (qualify ((ofRegistrations registrations).name scope) message.name) way =
      some resolved) :
    Canonical (ofRegistrations registrations) resolved := by
  obtain ⟨paths, hpaths, -⟩ := exists_represents registrations
  have hname : (ofRegistrations registrations).name scope = qualifiedName path :=
    hpaths.name_eq ((hpaths.find?_eq_some_iff path scope).mp hscope)
  rw [descend_eq, Option.map_eq_some_iff] at h
  obtain ⟨inner, hinner, rfl⟩ := h
  have hspelled : way.foldl qualify
      (qualify ((ofRegistrations registrations).name scope) message.name) =
        qualifiedName (path ++ message.name :: way) := by
    rw [qualifiedName_append, hname, List.foldl_cons]
  have hfree : DotFree (path ++ message.name :: way) := by
    intro segment hs
    rcases List.mem_append.mp hs with hin | hin
    · exact dotFree_of_find? registrations hscope segment hin
    · rcases List.mem_cons.mp hin with rfl | hin
      · exact hdot
      · exact hway segment hin
  constructor
  · obtain ⟨outer, last, hlast⟩ :=
      ((path ++ message.name :: way).eq_nil_or_concat').resolve_left (by simp)
    rw [hspelled, hlast, qualifiedName_concat]
    exact Dotted.exists_eq_dot outer last
  · intro any
    calc (ofRegistrations registrations).resolve any _
        = (ofRegistrations registrations).lookUp root (path ++ message.name :: way) := by
          rw [hspelled, resolve_of_absolute (ofString?_qualifiedName hfree (by simp))]
      _ = (ofRegistrations registrations).lookUp scope (message.name :: way) :=
          lookUp_of_walk hscope (List.cons_ne_nil _ _)
      _ = some ⟨inner, _⟩ := by
          rw [lookUp_of_no_child fun _ => hchild, hbound, Option.bind_some, hinner]
          rfl

/-- Whatever a reference resolves to inside a message that the tree binds has a canonical name. -/
theorem canonical_of_resolveWithin
    (hscope : (ofRegistrations registrations).find? path = some scope)
    {message : Message} (hdot : '.' ∉ message.name.toList)
    (hbound : (ofRegistrations registrations).type? scope message.name = some message)
    (hchild : (ofRegistrations registrations).child? scope message.name = none)
    {reference : String} {resolved : Resolved}
    (h : (ofRegistrations registrations).resolveWithin scope message
      (qualify ((ofRegistrations registrations).name scope) message.name) reference =
        some resolved) :
    Canonical (ofRegistrations registrations) resolved := by
  by_cases hne : reference = ""
  · rw [resolveWithin, hne] at h
    cases h
  cases hrel : absolute? reference with
  | some rest =>
    have hdotted := eq_dot_of_absolute? hrel
    rw [resolveWithin, hdotted, ofString?_dot] at h
    exact canonical_of_absolute registrations h
  | none =>
    have hreference := ofString?_relative hne hrel
    rw [resolveWithin, hreference] at h
    cases hnested : descend message
        (qualify ((ofRegistrations registrations).name scope) message.name)
        (segments reference) with
    | some inner =>
      simp only [hnested, Option.some_or, Option.some.injEq] at h
      obtain rfl := h
      exact canonical_of_nested registrations hscope hdot hbound hchild
        (dotFree_segments reference) hnested
    | none =>
      simp only [hnested, Option.none_or] at h
      refine canonical_of_relative registrations hscope hne hrel ?_
      rw [resolve, hreference]
      exact h

end

end TopicPlugin.Namespace.Tree
