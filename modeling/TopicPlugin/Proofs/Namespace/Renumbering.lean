import Mathlib.Data.List.Forall2
import TopicPlugin.Proofs.Namespace.References

/-!
# Trees that differ in their indices only

The index of a namespace tells when it was created and nothing else. A renumbering relates the
indices of two trees so that their roots are related, related namespaces have one name and bind the
same types, and each link of one leads to where the link of the other leads. What a reference means
is then the same on both sides, however the walks outwards and downwards are mixed.
-/

namespace TopicPlugin.Namespace.Tree

open TopicPlugin.Dotted

structure Renumbering {α : Type} (t t' : Tree α) (same : Nat → Nat → Prop) : Prop where
  root_same : same root root
  name_eq : ∀ {id id'}, same id id' → t.name id = t'.name id'
  parent_same : ∀ {id id'}, same id id' → Option.Rel same (t.parent? id) (t'.parent? id')
  child_same : ∀ {id id'}, same id id' → ∀ segment,
    Option.Rel same (t.child? id segment) (t'.child? id' segment)
  type_eq : ∀ {id id'}, same id id' → ∀ short, t.type? id short = t'.type? id' short

theorem cases_of_rel {α : Type} {same : α → α → Prop} {a b : Option α} (h : Option.Rel same a b) :
    (a = none ∧ b = none) ∨ ∃ x y, a = some x ∧ b = some y ∧ same x y := by
  cases h with
  | none => exact Or.inl ⟨rfl, rfl⟩
  | some hsame => exact Or.inr ⟨_, _, rfl, rfl, hsame⟩

namespace Renumbering

section

variable {α : Type} {t t' : Tree α} {same : Nat → Nat → Prop} {id id' : Nat}

theorem walk_same (h : Renumbering t t' same) (hid : same id id') (path : List String) :
    Option.Rel same (path.foldlM t.child? id) (path.foldlM t'.child? id') := by
  induction path generalizing id id' with
  | nil => exact .some hid
  | cons segment path ih =>
    rw [List.foldlM_cons, List.foldlM_cons]
    rcases cases_of_rel (h.child_same hid segment) with
      ⟨hc, hc'⟩ | ⟨child, child', hc, hc', hsame⟩
    · rw [hc, hc']
      exact .none
    · rw [hc, hc']
      exact ih hsame

theorem package?_same (h : Renumbering t t' same) (package : String) :
    Option.Rel same (t.package? package) (t'.package? package) :=
  h.walk_same h.root_same (packageSegments package)

theorem enclosing_same (h : Renumbering t t' same) (hid : same id id') :
    List.Forall₂ same (t.enclosing id) (t'.enclosing id') := by
  induction id using Nat.strongRecOn generalizing id' with
  | ind id ih =>
    rcases cases_of_rel (h.parent_same hid) with
      ⟨hp, hp'⟩ | ⟨parent, parent', hp, hp', hsame⟩
    · rw [enclosing_of_none hp, enclosing_of_none hp']
      exact .cons hid .nil
    · rw [enclosing_of_some hp, enclosing_of_some hp']
      exact .cons hid (ih parent (t.parent_lt hp) hsame)

end

section

variable {t t' : Tree Message} {same : Nat → Nat → Prop} {id id' : Nat}

theorem lookUp_eq (h : Renumbering t t' same) (hid : same id id') (path : List String) :
    t.lookUp id path = t'.lookUp id' path := by
  induction path generalizing id id' with
  | nil => rfl
  | cons segment path ih =>
    cases path with
    | nil => rw [lookUp, lookUp, h.type_eq hid, h.name_eq hid]
    | cons next path =>
      rw [lookUp, lookUp, h.type_eq hid, h.name_eq hid]
      · rcases cases_of_rel (h.child_same hid segment) with
          ⟨hc, hc'⟩ | ⟨child, child', hc, hc', hsame⟩
        · rw [hc, hc']
        · rw [hc, hc']
          exact ih hsame
      -- The equation used is the one for a path that goes on.
      all_goals exact List.cons_ne_nil next path

theorem lookUpOutwards_eq (h : Renumbering t t' same) (hid : same id id') (path : List String) :
    t.lookUpOutwards id path = t'.lookUpOutwards id' path :=
  findSome?_of_forall₂ ((h.enclosing_same hid).imp fun _ _ hsame => h.lookUp_eq hsame path)

theorem resolve_eq (h : Renumbering t t' same) (hid : same id id') (reference : String) :
    t.resolve id reference = t'.resolve id' reference := by
  rw [resolve, resolve]
  cases Reference.ofString? reference with
  | none => rfl
  | some written =>
    cases written with
    | absolute path => exact h.lookUp_eq h.root_same path
    | relative path => exact h.lookUpOutwards_eq hid path

theorem resolveWithin_eq (h : Renumbering t t' same) (hid : same id id') (message : Message)
    (name reference : String) :
    t.resolveWithin id message name reference = t'.resolveWithin id' message name reference := by
  rw [resolveWithin, resolveWithin]
  cases Reference.ofString? reference with
  | none => rfl
  | some written =>
    cases written with
    | absolute path => exact h.lookUp_eq h.root_same path
    | relative path =>
      have houtwards := h.lookUpOutwards_eq hid path
      change (descend message name path).or _ = (descend message name path).or _
      rw [houtwards]

end

end Renumbering

end TopicPlugin.Namespace.Tree
