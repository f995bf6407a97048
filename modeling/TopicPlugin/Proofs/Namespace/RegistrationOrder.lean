import Mathlib.Data.List.Perm.Basic
import TopicPlugin.Proofs.Namespace.Registration
import TopicPlugin.Proofs.Namespace.Renumbering

/-!
# The order of registrations

Registrations may come in another order, as long as those under one path and one short name keep
theirs. The tree is then the same up to the indices of its namespaces, which do change: the same
paths are there, with the same names and children, they bind the same declarations, and references
mean the same in them. Without the condition this fails, since the last declaration under a key is
the one that counts.
-/

namespace TopicPlugin.Namespace

open Dotted

variable {α : Type}

/-- The path and the short name that a declaration is registered under. -/
def Registration.key (r : Registration α) : List String × String :=
  (namespacePath r.package, r.short)

/-- The same registrations in another order, in which those of one key keep theirs. -/
structure Reordering (registrations others : List (Registration α)) : Prop where
  perm : registrations.Perm others
  filter_eq : ∀ key,
    (registrations.filter fun r => r.key = key) = others.filter fun r => r.key = key

namespace Reordering

theorem symm {registrations others : List (Registration α)} (h : Reordering registrations others) :
    Reordering others registrations :=
  ⟨h.perm.symm, fun key => (h.filter_eq key).symm⟩

/-- If no two registrations have one key, every order will do. -/
theorem of_nodup {registrations others : List (Registration α)} (h : registrations.Perm others)
    (hkeys : (registrations.map (·.key)).Nodup) : Reordering registrations others := by
  refine ⟨h, fun key => ?_⟩
  have hperm := h.filter fun r => r.key = key
  have hkey : (registrations.filter fun r => r.key = key).map (·.key) =
      List.replicate (registrations.filter fun r => r.key = key).length key :=
    List.map_eq_replicate_iff.mpr fun r hr => by simpa using (List.mem_filter.mp hr).2
  have hone : (registrations.filter fun r => r.key = key).length ≤ 1 := by
    rw [← List.nodup_replicate (a := key), ← hkey]
    exact hkeys.sublist (List.filter_sublist.map _)
  -- A permutation of one registration, or of none, can only be the same list.
  rcases Nat.le_one_iff_eq_zero_or_eq_one.mp hone with hnone | hsingle
  · rw [List.length_eq_zero_iff.mp hnone] at hperm ⊢
    exact hperm.nil_eq
  · obtain ⟨r, hr⟩ := List.length_eq_one_iff.mp hsingle
    rw [hr] at hperm ⊢
    exact List.singleton_perm.mp hperm

end Reordering

namespace Tree

/-- Indices of one path, each in its own tree. -/
def SamePath (t t' : Tree α) (id id' : Nat) : Prop :=
  ∃ path, t.find? path = some id ∧ t'.find? path = some id'

theorem samePath_comm {t t' : Tree α} {id id' : Nat} :
    SamePath t t' id id' ↔ SamePath t' t id' id :=
  exists_congr fun _ => and_comm

theorem find?_concat {t : Tree α} {path : List String} {id : Nat} (h : t.find? path = some id)
    (segment : String) : t.find? (path ++ [segment]) = t.child? id segment := by
  rw [find?, List.foldlM_append]
  change (t.find? path).bind _ = _
  rw [h, Option.bind_some, List.foldlM_cons]
  cases t.child? id segment <;> rfl

theorem declaration?_of_find? {t : Tree α} {path : List String} {id : Nat}
    (h : t.find? path = some id) (short : String) :
    t.declaration? path short = t.type? id short := by
  rw [declaration?, h, Option.bind_some]

theorem lastDeclaration?_eq_getLast? (registrations : List (Registration α)) (path : List String)
    (short : String) :
    lastDeclaration? registrations path short =
      ((registrations.filter fun r => r.key = (path, short)).getLast?).map (·.declaration) := by
  have hkey : (fun r : Registration α =>
      decide (namespacePath r.package = path ∧ r.short = short)) =
        fun r => decide (r.key = (path, short)) := by
    funext r
    simp [Registration.key]
  rw [lastDeclaration?, hkey, List.findRev?_eq_find?_reverse, ← List.head?_filter,
    List.filter_reverse, List.head?_reverse]

section

variable {registrations others : List (Registration α)} (h : Reordering registrations others)

include h

theorem find?_isSome_of_reordering (path : List String) :
    ((ofRegistrations registrations).find? path).isSome =
      ((ofRegistrations others).find? path).isSome := by
  obtain ⟨paths, hpaths, hmem⟩ := exists_represents registrations
  obtain ⟨paths', hpaths', hmem'⟩ := exists_represents others
  rw [Bool.eq_iff_iff, hpaths.find?_isSome_iff, hpaths'.find?_isSome_iff, hmem, hmem']
  simp only [h.perm.mem_iff]

theorem exists_find?_of_reordering {path : List String} {id : Nat}
    (hf : (ofRegistrations registrations).find? path = some id) :
    ∃ id', (ofRegistrations others).find? path = some id' := by
  have hsome := find?_isSome_of_reordering h path
  rw [hf] at hsome
  exact Option.isSome_iff_exists.mp hsome.symm

theorem rel_find?_of_reordering (path : List String) :
    Option.Rel (SamePath (ofRegistrations registrations) (ofRegistrations others))
      ((ofRegistrations registrations).find? path) ((ofRegistrations others).find? path) := by
  cases hf : (ofRegistrations registrations).find? path with
  | none =>
    have hsome := find?_isSome_of_reordering h path
    have hnone : (ofRegistrations others).find? path = none := by simpa [hf] using hsome.symm
    rw [hnone]
    exact .none
  | some id =>
    obtain ⟨id', hf'⟩ := exists_find?_of_reordering h hf
    rw [hf']
    exact .some ⟨path, hf, hf'⟩

/-- Each namespace of one tree has its counterpart in the other one. -/
theorem existsUnique_samePath_of_reordering {id : Nat}
    (hid : id < (ofRegistrations registrations).size) :
    ∃! id', SamePath (ofRegistrations registrations) (ofRegistrations others) id id' := by
  obtain ⟨paths, hpaths, -⟩ := exists_represents registrations
  obtain ⟨path, hp⟩ := hpaths.exists_path hid
  have hf := (hpaths.find?_eq_some_iff path id).mpr hp
  obtain ⟨id', hf'⟩ := exists_find?_of_reordering h hf
  refine ⟨id', ⟨path, hf, hf'⟩, ?_⟩
  rintro other ⟨longer, hl, hother⟩
  have hpath : paths[id]? = some longer := (hpaths.find?_eq_some_iff longer id).mp hl
  obtain rfl : path = longer := Option.some.inj (hp.symm.trans hpath)
  exact Option.some.inj (hother.symm.trans hf')

theorem declaration?_of_reordering (path : List String) (short : String) :
    (ofRegistrations registrations).declaration? path short =
      (ofRegistrations others).declaration? path short := by
  rw [declaration?_ofRegistrations, declaration?_ofRegistrations, lastDeclaration?_eq_getLast?,
    lastDeclaration?_eq_getLast?, h.filter_eq]

theorem renumbering_of_reordering :
    Renumbering (ofRegistrations registrations) (ofRegistrations others)
      (SamePath (ofRegistrations registrations) (ofRegistrations others)) := by
  obtain ⟨paths, hpaths, -⟩ := exists_represents registrations
  obtain ⟨paths', hpaths', -⟩ := exists_represents others
  constructor
  · exact ⟨[], rfl, rfl⟩
  · rintro id id' ⟨path, hf, hf'⟩
    rw [hpaths.name_eq ((hpaths.find?_eq_some_iff path id).mp hf),
      hpaths'.name_eq ((hpaths'.find?_eq_some_iff path id').mp hf')]
  · rintro id id' ⟨path, hf, hf'⟩
    have hstands := hpaths.standsAt hf
    have hstands' := hpaths'.standsAt hf'
    rcases path.eq_nil_or_concat' with rfl | ⟨outer, segment, rfl⟩
    · rw [hstands.parent_root rfl, hstands'.parent_root rfl]
      exact .none
    · obtain ⟨parent, hparent, ho⟩ := hstands.parent_concat outer segment rfl
      obtain ⟨parent', hparent', ho'⟩ := hstands'.parent_concat outer segment rfl
      rw [hparent, hparent']
      exact .some ⟨outer, ho, ho'⟩
  · rintro id id' ⟨path, hf, hf'⟩ segment
    rw [← find?_concat hf, ← find?_concat hf']
    exact rel_find?_of_reordering h (path ++ [segment])
  · rintro id id' ⟨path, hf, hf'⟩ short
    rw [← declaration?_of_find? hf, ← declaration?_of_find? hf']
    exact declaration?_of_reordering h path short

end

/-- The order of registrations of different keys shows in the indices only. Each namespace of one
tree has one counterpart in the other. A package exists in both or in neither, and in both its
namespace has one name, the same children and the same types, and gives every reference the same
meaning. -/
theorem ofRegistrations_order_independent {registrations others : List (Registration Message)}
    (h : Reordering registrations others) :
    (∀ id < (ofRegistrations registrations).size,
      ∃! id', SamePath (ofRegistrations registrations) (ofRegistrations others) id id') ∧
    (∀ id' < (ofRegistrations others).size,
      ∃! id, SamePath (ofRegistrations registrations) (ofRegistrations others) id id') ∧
    ∀ package,
      ((ofRegistrations registrations).package? package).isSome =
        ((ofRegistrations others).package? package).isSome ∧
      ∀ id id', (ofRegistrations registrations).package? package = some id →
        (ofRegistrations others).package? package = some id' →
        (ofRegistrations registrations).name id = (ofRegistrations others).name id' ∧
        (∀ segment, ((ofRegistrations registrations).child? id segment).isSome =
          ((ofRegistrations others).child? id' segment).isSome) ∧
        (∀ short, (ofRegistrations registrations).type? id short =
          (ofRegistrations others).type? id' short) ∧
        ∀ reference, (ofRegistrations registrations).resolve id reference =
          (ofRegistrations others).resolve id' reference := by
  have hsame := renumbering_of_reordering h
  refine ⟨fun id hid => existsUnique_samePath_of_reordering h hid, fun id' hid' => ?_,
    fun package => ⟨find?_isSome_of_reordering h (packageSegments package), ?_⟩⟩
  · simp only [samePath_comm (t := ofRegistrations registrations)]
    exact existsUnique_samePath_of_reordering h.symm hid'
  · intro id id' hf hf'
    have hid : SamePath (ofRegistrations registrations) (ofRegistrations others) id id' :=
      ⟨packageSegments package, hf, hf'⟩
    refine ⟨hsame.name_eq hid, fun segment => ?_, hsame.type_eq hid, hsame.resolve_eq hid⟩
    rcases cases_of_rel (hsame.child_same hid segment) with ⟨hc, hc'⟩ | ⟨child, child', hc, hc', -⟩
    · rw [hc, hc']
    · rw [hc, hc', Option.isSome_some, Option.isSome_some]

/-- A package beside two declarations of one key, which two spellings of a package lead to. -/
def crossedRegistrations : List (Registration Message) :=
  [⟨some "c", "N", { name := "N" }⟩, ⟨some "a.b", "M", { name := "M" }⟩,
    ⟨some ".a.b", "M", { name := "M", nested := [{ name := "P" }] }⟩]

/-- The same with the other package last. -/
def uncrossedRegistrations : List (Registration Message) :=
  [⟨some "a.b", "M", { name := "M" }⟩,
    ⟨some ".a.b", "M", { name := "M", nested := [{ name := "P" }] }⟩,
    ⟨some "c", "N", { name := "N" }⟩]

theorem reordering_crossed : Reordering crossedRegistrations uncrossedRegistrations where
  perm := .trans (.swap _ _ _) (.cons _ (.swap _ _ _))
  filter_eq key := by
    by_cases hother : key = (["c"], "N")
    · subst hother
      rfl
    · have hne : (["c"], "N") ≠ key := Ne.symm hother
      have hkey : namespacePath (some "c") = ["c"] := by decide
      simp [crossedRegistrations, uncrossedRegistrations, List.filter_cons, Registration.key, hkey,
        hne]

/-- The indices of a package differ, and what it means for a reference does not. -/
theorem ofRegistrations_order_independent_crossed :
    Reordering crossedRegistrations uncrossedRegistrations ∧
      (ofRegistrations crossedRegistrations).package? "a.b" = some 3 ∧
      (ofRegistrations uncrossedRegistrations).package? "a.b" = some 2 ∧
      (ofRegistrations crossedRegistrations).resolve 3 "M.P" =
        (ofRegistrations uncrossedRegistrations).resolve 2 "M.P" := by
  have hcrossed : (ofRegistrations crossedRegistrations).package? "a.b" = some 3 := by decide
  have huncrossed : (ofRegistrations uncrossedRegistrations).package? "a.b" = some 2 := by decide
  obtain ⟨-, -, hpackages⟩ := ofRegistrations_order_independent reordering_crossed
  obtain ⟨-, hsame⟩ := hpackages "a.b"
  obtain ⟨-, -, -, hresolve⟩ := hsame 3 2 hcrossed huncrossed
  exact ⟨reordering_crossed, hcrossed, huncrossed, hresolve "M.P"⟩

end Tree

end TopicPlugin.Namespace
