import TopicPlugin.Descriptor.Basic
import TopicPlugin.Generation
import TopicPlugin.Proofs.Namespace.Declarations

/-!
# References that end in a dot

The last segment of such a reference is empty, so it asks for a declaration of the empty name. It
resolves to nothing as long as there is none. A name that is left out of a request is the empty one,
however, and a message without a name is found behind a dot like any other by its name.
-/

namespace TopicPlugin

open Dotted

theorem Dotted.segments_append_dot (reference : String) :
    segments (reference ++ ".") = segments reference ++ [""] := by
  have h := segments_qualify reference ""
  rwa [qualify, String.append_empty] at h

/-- With a dot at its end, a reference is absolute or relative, and its last segment is empty. -/
theorem Dotted.ofString?_append_dot (reference : String) :
    ∃ before, Reference.ofString? (reference ++ ".") = some (.absolute (before ++ [""])) ∨
      Reference.ofString? (reference ++ ".") = some (.relative (before ++ [""])) := by
  have hsegments := segments_append_dot reference
  cases habsolute : absolute? (reference ++ ".") with
  | none =>
    have hne : reference ++ "." ≠ "" := by simp
    refine ⟨segments reference, Or.inr ?_⟩
    rw [ofString?_relative hne habsolute, hsegments]
  | some rest =>
    have hdot := eq_dot_of_absolute? habsolute
    obtain ⟨first, before, hfirst⟩ := List.exists_cons_of_ne_nil (segments_ne_nil reference)
    rw [hdot, segments_dot, hfirst, List.cons_append] at hsegments
    refine ⟨before, Or.inl ?_⟩
    rw [hdot, ofString?_dot, List.tail_eq_of_cons_eq hsegments]

namespace Namespace.Tree

/-- Among some registrations, a declaration has the empty name: it is registered under it, or it is
the first of that name inside a message that a registered one holds at some depth. -/
inductive Nameless (registrations : List (Registration Message)) : Message → Prop where
  | registered {r : Registration Message} (mem : r ∈ registrations) (short_eq : r.short = "") :
      Nameless registrations r.declaration
  | nested {r : Registration Message} {way : List String} {outer inner : Message}
      (mem : r ∈ registrations) (outer_eq : r.declaration.nestedPath? way = some outer)
      (inner_eq : outer.nested? "" = some inner) : Nameless registrations inner

theorem exists_lookUp_of_resolve_dot {t : Tree Message} {scope : Nat} {reference : String}
    {resolved : Resolved} (h : t.resolve scope (reference ++ ".") = some resolved) :
    ∃ id before, t.lookUp id (before ++ [""]) = some resolved := by
  obtain ⟨before, hreference⟩ := ofString?_append_dot reference
  rcases hreference with habsolute | hrelative
  · rw [resolve, habsolute] at h
    exact ⟨root, before, h⟩
  · rw [resolve, hrelative] at h
    obtain ⟨id, -, hid⟩ := List.exists_of_findSome?_eq_some h
    exact ⟨id, before, hid⟩

theorem nameless_of_lookUp {registrations : List (Registration Message)} {id : Nat}
    {before : List String} {resolved : Resolved}
    (h : (ofRegistrations registrations).lookUp id (before ++ [""]) = some resolved) :
    Nameless registrations resolved.message := by
  rw [lookUp_concat] at h
  cases hwalk : before.foldlM (ofRegistrations registrations).child? id with
  | some found =>
    rw [hwalk] at h
    obtain ⟨message, hbound, rfl⟩ := Option.map_eq_some_iff.mp h
    obtain ⟨r, hr, hshort, rfl⟩ := mem_of_type? hbound
    exact .registered hr hshort
  | none =>
    rw [hwalk] at h
    obtain ⟨outer, houter, hnested⟩ := Option.bind_eq_some_iff.mp h
    obtain ⟨inner, hinner, rfl⟩ := Option.map_eq_some_iff.mp hnested
    obtain ⟨r, hr, way, hway⟩ := exists_declaration_of_lookUp houter
    exact .nested hr hway hinner

/-- A reference that ends in a dot resolves to declarations of the empty name only, and so to
nothing where every declaration has a name. Where a declaration is registered under the empty name,
the name of its namespace with a dot behind it resolves from every scope, to the last such
declaration of the namespace. -/
theorem trailing_dot_asks_for_empty_name (registrations : List (Registration Message)) :
    (∀ scope reference resolved,
      (ofRegistrations registrations).resolve scope (reference ++ ".") = some resolved →
        Nameless registrations resolved.message) ∧
    ((∀ message, ¬Nameless registrations message) → ∀ scope reference,
      (ofRegistrations registrations).resolve scope (reference ++ ".") = none) ∧
    ∀ r ∈ registrations, r.short = "" → ∃ declared,
      lastDeclaration? registrations (namespacePath r.package) "" = some declared ∧
      ∀ scope, (ofRegistrations registrations).resolve scope
          (qualifiedName (namespacePath r.package) ++ ".") =
        some ⟨declared, qualifiedName (namespacePath r.package) ++ "."⟩ := by
  have hsound : ∀ scope reference resolved,
      (ofRegistrations registrations).resolve scope (reference ++ ".") = some resolved →
        Nameless registrations resolved.message := by
    intro scope reference resolved h
    obtain ⟨id, before, hfound⟩ := exists_lookUp_of_resolve_dot h
    exact nameless_of_lookUp hfound
  refine ⟨hsound, fun hnamed scope reference => ?_, fun r hr hshort => ?_⟩
  · cases hfound : (ofRegistrations registrations).resolve scope (reference ++ ".") with
    | none => rfl
    | some resolved => exact absurd (hsound scope reference resolved hfound) (hnamed _)
  · obtain ⟨declared, hlast⟩ := exists_lastDeclaration? hr
    rw [hshort] at hlast
    refine ⟨declared, hlast, fun scope => ?_⟩
    obtain ⟨id, hid⟩ := exists_find?_of_mem hr
    have hresolve := resolve_declared registrations hid (by simp : '.' ∉ "".toList) scope
    rw [qualify, String.append_empty, hlast, Option.map_some] at hresolve
    exact hresolve

/-- A package with empty segments inside it and at its end, and a message with one inside it. -/
def emptySegmentRegistrations : List (Registration Message) :=
  [⟨some "a..b.", "M", { name := "M", nested := [{ name := "N" }] }⟩]

/-- Empty segments of packages do not count as names of declarations. -/
theorem trailing_dot_asks_for_empty_name_segments :
    (∀ message, ¬Nameless emptySegmentRegistrations message) ∧
    ∀ scope reference,
      (ofRegistrations emptySegmentRegistrations).resolve scope (reference ++ ".") = none := by
  have hnamed : ∀ message, ¬Nameless emptySegmentRegistrations message := by
    intro message hnameless
    cases hnameless with
    | registered hr hshort =>
      obtain rfl := List.mem_singleton.mp hr
      exact absurd hshort (by decide)
    | @nested _ way _ _ hr houter hinner =>
      obtain rfl := List.mem_singleton.mp hr
      cases way with
      | nil =>
        cases houter
        cases hinner
      | cons segment way =>
        obtain ⟨next, hnext, houter⟩ := Option.bind_eq_some_iff.mp houter
        obtain rfl := List.mem_singleton.mp (List.mem_of_find?_eq_some hnext)
        cases way with
        | nil =>
          cases houter
          cases hinner
        | cons last way => cases houter
  obtain ⟨-, hnone, -⟩ := trailing_dot_asks_for_empty_name emptySegmentRegistrations
  exact ⟨hnamed, hnone hnamed⟩

/-- A request for one file with one message, which has no name. -/
def namelessRequest : RequestDescriptor := { files := [{ messages := [{}] }] }

/-- The message is registered under the empty name. -/
theorem registrations_namelessRequest :
    namelessRequest.request.registrations = [⟨none, "", { name := "" }⟩] := by
  simp [namelessRequest, RequestDescriptor.request, FileDescriptor.file, MessageDescriptor.message,
    Request.registrations]

/-- And so it is found behind a dot. -/
theorem nameless_behind_dot :
    (namelessRequest.request.tree.resolve root ".").map (·.name) = some "." := by
  rw [Request.tree, registrations_namelessRequest]
  decide +kernel

end Namespace.Tree

end TopicPlugin
