import Mathlib.Data.List.Forall2
import Mathlib.Data.List.Infix
import TopicPlugin.Proofs.Namespace.LookUp

/-!
# What references resolve to

An absolute reference is decided by the longest part of its path that leads to a namespace, and its
qualified name is the reference itself. A relative reference is the first to resolve among the
absolute ones that put the name of the scope, and of each namespace around it, in front. All trees
here are those that registrations build.
-/

namespace TopicPlugin.Namespace.Tree

open TopicPlugin.Dotted

theorem findSome?_of_forall₂ {α β γ : Type} {f : α → Option γ} {g : β → Option γ} {as : List α}
    {bs : List β} (h : List.Forall₂ (fun a b => f a = g b) as bs) :
    as.findSome? f = bs.findSome? g := by
  induction h with
  | nil => rfl
  | cons hab _ ih => rw [List.findSome?_cons, List.findSome?_cons, hab, ih]

/-- If a hit tells what it was found under, the first hit tells the first thing that has one. -/
theorem map_findSome?_of_key {α β : Type} {f : α → Option β} {key : β → α} {as : List α}
    (h : ∀ a ∈ as, ∀ b, f a = some b → key b = a) :
    (as.findSome? f).map key = as.find? fun a => (f a).isSome := by
  induction as with
  | nil => rfl
  | cons a as ih =>
    rw [List.findSome?_cons, List.find?_cons]
    cases hf : f a with
    | none => exact ih fun a ha => h a (List.mem_cons_of_mem _ ha)
    | some b => exact congrArg some (h a List.mem_cons_self b hf)

theorem resolve_of_absolute {reference : String} {path : List String}
    (h : Reference.ofString? reference = some (.absolute path)) (t : Tree Message) (scope : Nat) :
    t.resolve scope reference = t.lookUp root path := by
  rw [resolve, h]

section

variable (registrations : List (Registration Message))

/-- The name of the namespace at some depth of a path, qualified by the segments left over, is the
name of the whole path. -/
theorem foldl_qualify_drop {path : List String} {k id : Nat}
    (hid : (ofRegistrations registrations).find? (path.take k) = some id) :
    (path.drop k).foldl qualify ((ofRegistrations registrations).name id) =
      qualifiedName path := by
  obtain ⟨paths, hpaths, -⟩ := exists_represents registrations
  rw [hpaths.name_eq ((hpaths.find?_eq_some_iff _ _).mp hid), ← qualifiedName_append,
    List.take_append_drop]

theorem resolve_dot {reference : String} {k id : Nat}
    (hk : IsGreatest ((ofRegistrations registrations).depths (segments reference)) k)
    (hid : (ofRegistrations registrations).find? ((segments reference).take k) = some id)
    (scope : Nat) :
    (ofRegistrations registrations).resolve scope ("." ++ reference) =
      (segments reference)[k]?.bind fun short =>
        ((ofRegistrations registrations).type? id short).bind fun outer =>
          (outer.nestedPath? ((segments reference).drop (k + 1))).map fun message =>
            ⟨message, "." ++ reference⟩ := by
  rw [resolve_of_absolute (ofString?_dot reference), lookUp_root_of_depth hk hid,
    foldl_qualify_drop registrations hid, qualifiedName_segments]

theorem resolve_dot_eq_some_iff {reference : String} {k id : Nat}
    (hk : IsGreatest ((ofRegistrations registrations).depths (segments reference)) k)
    (hid : (ofRegistrations registrations).find? ((segments reference).take k) = some id)
    (scope : Nat) (resolved : Resolved) :
    (ofRegistrations registrations).resolve scope ("." ++ reference) = some resolved ↔
      resolved.name = "." ++ reference ∧ ∃ short outer, (segments reference)[k]? = some short ∧
        (ofRegistrations registrations).type? id short = some outer ∧
        outer.nestedPath? ((segments reference).drop (k + 1)) = some resolved.message := by
  rw [resolve_dot registrations hk hid]
  constructor
  · intro hfound
    obtain ⟨short, hshort, hbound⟩ := Option.bind_eq_some_iff.mp hfound
    obtain ⟨outer, houter, hnested⟩ := Option.bind_eq_some_iff.mp hbound
    obtain ⟨inner, hinner, rfl⟩ := Option.map_eq_some_iff.mp hnested
    exact ⟨rfl, short, outer, hshort, houter, hinner⟩
  · intro hfound
    obtain ⟨hname, short, outer, hshort, houter, hinner⟩ := hfound
    rw [hshort, Option.bind_some, houter, Option.bind_some, hinner, Option.map_some, ← hname]

/-- An absolute reference finds a message exactly if the namespace at the greatest depth of its path
binds the next segment to a message from which the segments left over lead there. The scope plays no
part, and no smaller depth is tried. -/
theorem resolve_absolute_iff (reference : String) :
    ∃ k id, IsGreatest ((ofRegistrations registrations).depths (segments reference)) k ∧
      (ofRegistrations registrations).find? ((segments reference).take k) = some id ∧
      ∀ scope message name,
        (ofRegistrations registrations).resolve scope ("." ++ reference) =
          some ⟨message, name⟩ ↔
        name = "." ++ reference ∧ ∃ short outer, (segments reference)[k]? = some short ∧
          (ofRegistrations registrations).type? id short = some outer ∧
          outer.nestedPath? ((segments reference).drop (k + 1)) = some message := by
  obtain ⟨k, id, hk, hid⟩ :=
    (ofRegistrations registrations).exists_depth (segments_ne_nil reference)
  refine ⟨k, id, hk, hid, fun scope message name => ?_⟩
  exact resolve_dot_eq_some_iff registrations hk hid scope ⟨message, name⟩

/-- A message found by an absolute reference has the reference for a name. -/
theorem name_of_resolve_dot {scope : Nat} {reference : String} {resolved : Resolved}
    (h : (ofRegistrations registrations).resolve scope ("." ++ reference) = some resolved) :
    resolved.name = "." ++ reference := by
  obtain ⟨k, id, hk, hid⟩ :=
    (ofRegistrations registrations).exists_depth (segments_ne_nil reference)
  exact ((resolve_dot_eq_some_iff registrations hk hid scope resolved).mp h).1

/-- A reference with the name of a namespace in front is looked up in this namespace. -/
theorem resolve_qualify {path : List String} {id : Nat}
    (h : (ofRegistrations registrations).find? path = some id) (scope : Nat)
    (reference : String) :
    (ofRegistrations registrations).resolve scope (qualify (qualifiedName path) reference) =
      (ofRegistrations registrations).lookUp id (segments reference) := by
  rw [resolve_of_absolute (ofString?_qualify (dotFree_of_find? registrations h) reference)]
  exact lookUp_of_walk h (segments_ne_nil reference)

/-- The namespaces around a namespace are those of the parts of its path, the longest first. -/
theorem enclosing_forall₂ {path : List String} {scope : Nat}
    (h : (ofRegistrations registrations).find? path = some scope) :
    List.Forall₂ (fun id outer => (ofRegistrations registrations).find? outer = some id)
      ((ofRegistrations registrations).enclosing scope) path.inits.reverse := by
  obtain ⟨paths, hpaths, -⟩ := exists_represents registrations
  induction path using List.reverseRecOn generalizing scope with
  | nil =>
    have hroot : (ofRegistrations registrations).parent? scope = none := by
      rw [(hpaths.root_iff scope).mp ((hpaths.find?_eq_some_iff [] scope).mp h),
        hpaths.parent_root]
    rw [enclosing_of_none hroot]
    exact .cons h .nil
  | append_singleton path segment ih =>
    obtain ⟨outer, hparent, ho⟩ := hpaths.parent_concat ((hpaths.find?_eq_some_iff _ _).mp h)
    have hinits : (path ++ [segment]).inits.reverse =
        (path ++ [segment]) :: path.inits.reverse := by
      simp [List.inits_append]
    rw [enclosing_of_some hparent, hinits]
    exact .cons h (ih ((hpaths.find?_eq_some_iff _ _).mpr ho))

/-- The absolute references that a relative one may stand for in a scope, from the inside out. -/
def candidates (path : List String) (reference : String) : List String :=
  path.inits.reverse.map fun outer => qualify (qualifiedName outer) reference

theorem resolve_candidate {path : List String} {scope : Nat}
    (h : (ofRegistrations registrations).find? path = some scope) {reference candidate : String}
    (hc : candidate ∈ candidates path reference) (any : Nat) :
    (ofRegistrations registrations).resolve any candidate =
      (ofRegistrations registrations).resolve root candidate := by
  obtain ⟨outer, ho, rfl⟩ := List.mem_map.mp hc
  have hfree : DotFree outer := fun segment hs =>
    dotFree_of_find? registrations h segment
      (((List.mem_inits outer path).mp (List.mem_reverse.mp ho)).subset hs)
  rw [resolve_of_absolute (ofString?_qualify hfree reference),
    resolve_of_absolute (ofString?_qualify hfree reference)]

theorem name_of_resolve_candidate {path : List String} {reference candidate : String}
    (hc : candidate ∈ candidates path reference) {any : Nat} {resolved : Resolved}
    (h : (ofRegistrations registrations).resolve any candidate = some resolved) :
    resolved.name = candidate := by
  obtain ⟨outer, -, rfl⟩ := List.mem_map.mp hc
  obtain ⟨rest, hrest⟩ := exists_eq_dot outer reference
  rw [hrest] at h ⊢
  exact name_of_resolve_dot registrations h

/-- A relative reference tries its candidates in order. -/
theorem resolve_eq_findSome? {path : List String} {scope : Nat}
    (h : (ofRegistrations registrations).find? path = some scope) {reference : String}
    (hne : reference ≠ "") (hrel : absolute? reference = none) :
    (ofRegistrations registrations).resolve scope reference =
      (candidates path reference).findSome? ((ofRegistrations registrations).resolve root) := by
  have hreference := ofString?_relative hne hrel
  rw [resolve, hreference, candidates, List.findSome?_map]
  refine findSome?_of_forall₂ ((enclosing_forall₂ registrations h).imp fun id outer ho => ?_)
  exact (resolve_qualify registrations ho root reference).symm

/-- Every namespace has one path, and a relative reference in it is an ordered search over the
enclosing names: the first candidate that resolves gives the declaration and is its qualified name.
Such a name resolves to the same from every scope. -/
theorem resolve_relative_search {scope : Nat}
    (hscope : scope < (ofRegistrations registrations).size) :
    ∃ path, (∀ other, (ofRegistrations registrations).find? other = some scope ↔ other = path) ∧
      ∀ reference, reference ≠ "" → absolute? reference = none →
        (ofRegistrations registrations).resolve scope reference =
          (candidates path reference).findSome? ((ofRegistrations registrations).resolve root) ∧
        ((ofRegistrations registrations).resolve scope reference).map (·.name) =
          (candidates path reference).find? (fun candidate =>
            ((ofRegistrations registrations).resolve root candidate).isSome) ∧
        ∀ resolved, (ofRegistrations registrations).resolve scope reference = some resolved →
          ∀ any, (ofRegistrations registrations).resolve any resolved.name = some resolved := by
  obtain ⟨paths, hpaths, -⟩ := exists_represents registrations
  obtain ⟨path, hpath⟩ := hpaths.exists_path hscope
  have hfind := (hpaths.find?_eq_some_iff path scope).mpr hpath
  refine ⟨path, fun other => ?_, fun reference hne hrel => ?_⟩
  · rw [hpaths.find?_eq_some_iff, hpath, Option.some.injEq, eq_comm]
  · have hsearch := resolve_eq_findSome? registrations hfind hne hrel
    refine ⟨hsearch, ?_, fun resolved hresolved any => ?_⟩
    · rw [hsearch]
      exact map_findSome?_of_key fun candidate hc resolved hr =>
        name_of_resolve_candidate registrations hc hr
    · rw [hsearch] at hresolved
      obtain ⟨candidate, hc, hr⟩ := List.exists_of_findSome?_eq_some hresolved
      rw [name_of_resolve_candidate registrations hc hr,
        resolve_candidate registrations hfind hc, hr]

end

/-- Two packages, one inside the other, with a message of one name each; only the outer one has a
message nested in it. -/
def shadowedRegistrations : List (Registration Message) :=
  [⟨some "a.b", "M", { name := "M" }⟩,
    ⟨some "a", "M", { name := "M", nested := [{ name := "N" }] }⟩]

/-- The search goes on outwards after the inner message has matched the first segment only. -/
theorem resolve_relative_search_shadowed :
    2 < (ofRegistrations shadowedRegistrations).size ∧
      ((ofRegistrations shadowedRegistrations).resolve 2 "M.N").map (·.name) = some ".a.M.N" := by
  have hscope : 2 < (ofRegistrations shadowedRegistrations).size := by decide
  obtain ⟨path, hpath, hsearch⟩ := resolve_relative_search shadowedRegistrations hscope
  have hab : ["a", "b"] = path := (hpath ["a", "b"]).mp (by decide)
  refine ⟨hscope, ?_⟩
  rw [(hsearch "M.N" (by decide) (by decide)).2.1, ← hab]
  decide

end TopicPlugin.Namespace.Tree
