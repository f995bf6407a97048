import Mathlib.Data.List.Forall2

/-!
# Traversals that can fail

A traversal of a list gives one result for each element, or it fails as the first element does that
has no result.
-/

namespace TopicPlugin.Traversal

variable {ε α β : Type} {failure : ε}

section

variable {f : α → β} {g : α → Except ε β} {result : Except ε α} {b : β}

theorem map_eq_ok_iff : result.map f = .ok b ↔ ∃ a, result = .ok a ∧ f a = b := by
  cases result with
  | error other => simp [Except.map]
  | ok a => simp [Except.map]

theorem bind_eq_ok_iff : result >>= g = .ok b ↔ ∃ a, result = .ok a ∧ g a = .ok b := by
  cases result with
  | error other => simp [bind, Except.bind]
  | ok a => simp [bind, Except.bind]

end

variable {f : α → Except ε β}

theorem mapM_eq_ok_iff {as : List α} {bs : List β} :
    as.mapM f = .ok bs ↔ List.Forall₂ (fun a b => f a = .ok b) as bs := by
  constructor
  · intro h
    induction as generalizing bs with
    | nil =>
      rw [List.mapM_nil] at h
      cases h
      exact .nil
    | cons a as ih =>
      rw [List.mapM_cons, bind_eq_ok_iff] at h
      obtain ⟨b, ha, h⟩ := h
      rw [bind_eq_ok_iff] at h
      obtain ⟨others, has, h⟩ := h
      cases h
      exact .cons ha (ih has)
  · intro h
    induction h with
    | nil => rfl
    | cons hab _ ih =>
      rw [List.mapM_cons, hab, ih]
      rfl

end TopicPlugin.Traversal
