import TopicPlugin.Proofs.Namespace.References

/-!
# The strict rule for relative references

A compiler looks a relative reference up in one place only: the first, from the message that it is
written in outwards, that binds its first segment. If the rest of the reference leads nowhere from
there, the reference means nothing. The look-up of a tree goes on to the places further out instead.
So it finds whatever the strict rule finds, and where it finds more, it is in a place that lies
beyond the one that the strict rule stops at.
-/

namespace TopicPlugin.Namespace

open TopicPlugin.Dotted

/-- Where a relative reference can be looked up: inside a message of some qualified name, or in a
namespace. -/
inductive Place where
  | inMessage (message : Message) (name : String)
  | inNamespace (id : Nat)

namespace Place

/-- Whether a place has something under the first segment of a path. In a namespace this is a
message, or a child namespace if the path goes on. -/
def binds (t : Tree Message) : Place → List String → Bool
  | _, [] => false
  | .inMessage message _, first :: _ => (message.nested? first).isSome
  | .inNamespace id, [short] => (t.type? id short).isSome
  | .inNamespace id, first :: _ => (t.child? id first).isSome || (t.type? id first).isSome

/-- What the whole path means in a place, without regard to the others. -/
def lookUp (t : Tree Message) : Place → List String → Option Resolved
  | .inMessage message name, path => descend message name path
  | .inNamespace id, path => t.lookUp id path

/-- A place that finds a path binds its first segment. -/
theorem binds_of_lookUp {t : Tree Message} {place : Place} {path : List String} (hne : path ≠ [])
    {resolved : Resolved} (h : place.lookUp t path = some resolved) : place.binds t path = true := by
  obtain ⟨first, rest, rfl⟩ := List.exists_cons_of_ne_nil hne
  cases place with
  | inMessage message name =>
    change descend message name (first :: rest) = some resolved at h
    rw [descend] at h
    cases hnested : message.nested? first with
    | none =>
      rw [hnested] at h
      cases h
    | some inner => simp [binds, hnested]
  | inNamespace id =>
    change t.lookUp id (first :: rest) = some resolved at h
    cases rest with
    | nil =>
      rw [Tree.lookUp, Option.map_eq_some_iff] at h
      obtain ⟨message, hbound, -⟩ := h
      simp [binds, hbound]
    | cons next rest =>
      cases hchild : t.child? id first with
      | some child => simp [binds, hchild]
      | none =>
        rw [Tree.lookUp_of_no_child fun _ => hchild] at h
        obtain ⟨message, hbound, -⟩ := Option.bind_eq_some_iff.mp h
        simp [binds, hbound]

end Place

/-- A search for a first hit, seen from the first candidate that has a chance. -/
theorem findSome?_eq_or_of_first {α β : Type} {f : α → Option β} {chance : α → Bool} {as : List α}
    (h : ∀ a ∈ as, ∀ b, f a = some b → chance a = true) :
    as.findSome? f =
      ((as.find? chance).bind f).or ((as.dropWhile (!chance ·)).tail.findSome? f) := by
  induction as with
  | nil => rfl
  | cons a as ih =>
    rw [List.findSome?_cons, List.find?_cons, List.dropWhile_cons]
    cases hchance : chance a with
    | true =>
      change _ = (f a).or (as.findSome? f)
      cases f a <;> rfl
    | false =>
      have hmiss : f a = none := by
        by_contra hfound
        obtain ⟨b, hb⟩ := Option.ne_none_iff_exists'.mp hfound
        rw [h a List.mem_cons_self b hb] at hchance
        cases hchance
      rw [hmiss]
      exact ih fun other ho => h other (List.mem_cons_of_mem a ho)

namespace Tree

/-- The places around a reference in a message of a scope, from the inside out. -/
def places (t : Tree Message) (scope : Nat) (message : Message) (name : String) : List Place :=
  .inMessage message name :: (t.enclosing scope).map .inNamespace

/-- The strict rule: the first place that binds the first segment decides. -/
def strictLookUp (t : Tree Message) (scope : Nat) (message : Message) (name : String)
    (path : List String) : Option Resolved :=
  ((t.places scope message name).find? (·.binds t path)).bind (·.lookUp t path)

/-- The places that the strict rule leaves out: those behind the first that binds the first
segment. -/
def placesBeyond (t : Tree Message) (scope : Nat) (message : Message) (name : String)
    (path : List String) : List Place :=
  ((t.places scope message name).dropWhile (!·.binds t path)).tail

variable (t : Tree Message) (scope : Nat) (message : Message) (name : String)

theorem resolveWithin_eq_findSome? {reference : String} (hne : reference ≠ "")
    (hrel : absolute? reference = none) :
    t.resolveWithin scope message name reference =
      (t.places scope message name).findSome? (·.lookUp t (segments reference)) := by
  have houtwards : ((t.enclosing scope).map Place.inNamespace).findSome?
      (·.lookUp t (segments reference)) = t.lookUpOutwards scope (segments reference) := by
    rw [List.findSome?_map]
    rfl
  have hinside : (Place.inMessage message name).lookUp t (segments reference) =
      descend message name (segments reference) := rfl
  rw [resolveWithin, ofString?_relative hne hrel, places, List.findSome?_cons, houtwards, hinside]
  show (descend message name (segments reference)).or _ = _
  cases descend message name (segments reference) <;> rfl

/-- A reference inside a message means what the strict rule says, if the strict rule says anything.
Otherwise it means what the first of the places beyond says, if one of them does. -/
theorem resolveWithin_extends_strict {reference : String} (hne : reference ≠ "")
    (hrel : absolute? reference = none) :
    (∀ resolved, t.strictLookUp scope message name (segments reference) = some resolved →
      t.resolveWithin scope message name reference = some resolved) ∧
    (t.strictLookUp scope message name (segments reference) = none →
      t.resolveWithin scope message name reference =
        (t.placesBeyond scope message name (segments reference)).findSome?
          (·.lookUp t (segments reference))) := by
  have hchance : ∀ place ∈ t.places scope message name, ∀ resolved,
      place.lookUp t (segments reference) = some resolved →
        place.binds t (segments reference) = true :=
    fun place _ resolved hfound => place.binds_of_lookUp (segments_ne_nil reference) hfound
  have hsearch := t.resolveWithin_eq_findSome? scope message name hne hrel
  rw [findSome?_eq_or_of_first hchance] at hsearch
  constructor
  · intro resolved hstrict
    rw [strictLookUp] at hstrict
    rw [hsearch, hstrict, Option.some_or]
  · intro hstrict
    rw [strictLookUp] at hstrict
    rw [hsearch, hstrict, Option.none_or]
    rfl

/-- From a message in the inner package, a path through the outer one is found there by both rules.
A path that stops after its first segment in the inner package is found further out, where the
strict rule does not look. -/
theorem resolveWithin_extends_strict_shadowed :
    ((ofRegistrations shadowedRegistrations).strictLookUp 2 { name := "H" } ".a.b.H"
      ["b", "M"]).map (·.name) = some ".a.b.M" ∧
    ((ofRegistrations shadowedRegistrations).resolveWithin 2 { name := "H" } ".a.b.H"
      "b.M").map (·.name) = some ".a.b.M" ∧
    ((ofRegistrations shadowedRegistrations).strictLookUp 2 { name := "H" } ".a.b.H"
      ["M", "N"]).map (·.name) = none ∧
    ((ofRegistrations shadowedRegistrations).resolveWithin 2 { name := "H" } ".a.b.H"
      "M.N").map (·.name) = some ".a.M.N" := by
  have hinner : (ofRegistrations shadowedRegistrations).parent? 2 = some 1 := by decide
  have houter : (ofRegistrations shadowedRegistrations).parent? 1 = some 0 := by decide
  have hroot : (ofRegistrations shadowedRegistrations).parent? 0 = none := by decide
  have hplaces : (ofRegistrations shadowedRegistrations).places 2 { name := "H" } ".a.b.H" =
      [.inMessage { name := "H" } ".a.b.H", .inNamespace 2, .inNamespace 1, .inNamespace 0] := by
    rw [places, enclosing_of_some hinner, enclosing_of_some houter, enclosing_of_none hroot]
    rfl
  have hfound : (ofRegistrations shadowedRegistrations).strictLookUp 2 { name := "H" } ".a.b.H"
      ["b", "M"] = some ⟨{ name := "M" }, ".a.b.M"⟩ := by
    rw [strictLookUp, hplaces]
    rfl
  have hmissed : (ofRegistrations shadowedRegistrations).strictLookUp 2 { name := "H" } ".a.b.H"
      ["M", "N"] = none := by
    rw [strictLookUp, hplaces]
    rfl
  have hthrough : segments "b.M" = ["b", "M"] := by decide
  have hstopped : segments "M.N" = ["M", "N"] := by decide
  refine ⟨by rw [hfound]; rfl, ?_, by rw [hmissed]; rfl, ?_⟩
  · obtain ⟨hsame, -⟩ := resolveWithin_extends_strict (ofRegistrations shadowedRegistrations) 2
      { name := "H" } ".a.b.H" (by decide : "b.M" ≠ "") (by decide)
    rw [hsame _ (by rw [hthrough]; exact hfound)]
    rfl
  · obtain ⟨-, hbeyond⟩ := resolveWithin_extends_strict (ofRegistrations shadowedRegistrations) 2
      { name := "H" } ".a.b.H" (by decide : "M.N" ≠ "") (by decide)
    rw [hbeyond (by rw [hstopped]; exact hmissed), placesBeyond, hplaces, hstopped]
    rfl

end Tree

end TopicPlugin.Namespace
