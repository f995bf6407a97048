/-!
# Tables by name

A finite map from names to values. Each name occurs once, which the type carries; a value put under
a name replaces the value that was there. The order of the entries is not part of the meaning.
-/

namespace TopicPlugin

structure Table (α : Type) where
  entries : List (String × α)
  nodup_names : (entries.map (·.1)).Nodup

namespace Table

variable {α : Type}

def empty : Table α := ⟨[], by simp⟩

instance : Inhabited (Table α) := ⟨empty⟩

def find? (t : Table α) (name : String) : Option α :=
  (t.entries.find? (·.1 = name)).map (·.2)

def names (t : Table α) : List String := t.entries.map (·.1)

/-- The value goes under the name, in place of one that is there already. -/
def insert (t : Table α) (name : String) (value : α) : Table α where
  entries := t.entries.filter (·.1 ≠ name) ++ [(name, value)]
  nodup_names := by
    rw [List.map_append, List.nodup_append]
    refine ⟨?_, by simp, ?_⟩
    · exact t.nodup_names.sublist (List.filter_sublist.map _)
    · intro a ha b hb hab
      simp only [List.mem_map, List.mem_filter] at ha hb
      obtain ⟨entry, ⟨-, hne⟩, rfl⟩ := ha
      obtain ⟨last, hlast, rfl⟩ := hb
      simp only [List.mem_singleton] at hlast
      simp_all

@[simp] theorem find?_empty (name : String) : (empty : Table α).find? name = none := rfl

theorem find?_insert (t : Table α) (name other : String) (value : α) :
    (t.insert name value).find? other = if other = name then some value else t.find? other := by
  unfold find? insert
  rw [List.find?_append, List.find?_filter]
  by_cases h : other = name
  · subst h
    rw [List.find?_eq_none.mpr (by simp)]
    simp
  · simp [h, Ne.symm h]
    congr 2
    funext entry
    by_cases he : entry.1 = other <;> simp [he, h]

theorem mem_names_iff (t : Table α) (name : String) :
    name ∈ t.names ↔ (t.find? name).isSome = true := by
  simp [names, find?, List.find?_isSome, List.mem_map]

end Table

end TopicPlugin
