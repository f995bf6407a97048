import TopicPlugin.Namespace.Tree

/-!
# What growing a tree does to its namespaces

One equation for each view of a namespace after each step of growth. A new namespace changes the
children of its parent under one segment, and a declaration changes the types of one namespace under
one short name; opening a path adds namespaces and binds nothing.
-/

namespace TopicPlugin.Namespace.Tree

open TopicPlugin.Dotted (qualify)

variable {α : Type}

theorem nodes_eq_none {t : Tree α} {id : Nat} (h : t.size ≤ id) : t.nodes[id]? = none :=
  Array.getElem?_eq_none h

theorem child?_eq_none {t : Tree α} {id : Nat} (h : t.size ≤ id) (segment : String) :
    t.child? id segment = none := by
  rw [child?, nodes_eq_none h, Option.bind_none]

theorem type?_eq_none {t : Tree α} {id : Nat} (h : t.size ≤ id) (short : String) :
    t.type? id short = none := by
  rw [type?, nodes_eq_none h, Option.bind_none]

theorem type?_empty (id : Nat) (short : String) : (empty : Tree α).type? id short = none := by
  cases id <;> simp [type?, empty]

theorem child?_empty (id : Nat) (segment : String) :
    (empty : Tree α).child? id segment = none := by
  cases id <;> simp [child?, empty]

section addChild

variable {t : Tree α} {id : Nat} (h : id < t.size) (segment : String)

include h

theorem nodes_addChild (other : Nat) :
    (t.addChild id segment).nodes[other]? =
      if other = t.size then some ⟨qualify (t.name id) segment, some id, .empty, .empty⟩
      else if id = other then t.nodes[other]?.map fun node =>
        { node with children := node.children.insert segment t.size }
      else t.nodes[other]? := by
  rw [addChild, dif_pos h]
  change ((t.nodes.push _).modify id _)[other]? = _
  rw [Array.getElem?_modify, Array.getElem?_push]
  by_cases ho : other = t.nodes.size
  · have hne : id ≠ other := by rw [ho]; exact Nat.ne_of_lt h
    rw [if_neg hne, if_pos ho]
    exact (if_pos ho).symm
  · rw [if_neg ho]
    exact (if_neg ho).symm

theorem size_addChild : (t.addChild id segment).size = t.size + 1 := by
  rw [addChild, dif_pos h]
  simp [size, modify, push]

theorem name_addChild (other : Nat) :
    (t.addChild id segment).name other =
      if other = t.size then qualify (t.name id) segment else t.name other := by
  rw [name, nodes_addChild h]
  split
  · rfl
  · split
    · cases hn : t.nodes[other]? <;> simp [name, hn]
    · rfl

theorem parent?_addChild (other : Nat) :
    (t.addChild id segment).parent? other =
      if other = t.size then some id else t.parent? other := by
  rw [parent?, nodes_addChild h]
  split
  · rfl
  · split
    · cases hn : t.nodes[other]? <;> simp [parent?, hn]
    · rfl

theorem child?_addChild (other : Nat) (s : String) :
    (t.addChild id segment).child? other s =
      if other = id ∧ s = segment then some t.size else t.child? other s := by
  have hne : id ≠ t.size := Nat.ne_of_lt h
  rw [child?, nodes_addChild h]
  by_cases ho : other = t.size
  · rw [if_pos ho, if_neg (by omega), child?_eq_none (Nat.le_of_eq ho.symm)]
    rfl
  · rw [if_neg ho]
    by_cases hi : id = other
    · subst other
      have hn : t.nodes[id]? = some t.nodes[id] := Array.getElem?_eq_getElem h
      simp [child?, hn, Table.find?_insert]
    · simp [hi, Ne.symm hi, child?]

theorem type?_addChild (other : Nat) (short : String) :
    (t.addChild id segment).type? other short = t.type? other short := by
  rw [type?, nodes_addChild h]
  split
  next ho => rw [type?_eq_none (Nat.le_of_eq ho.symm)]; rfl
  next =>
    split
    · cases hn : t.nodes[other]? <;> simp [type?, hn]
    · rfl

end addChild

section bind

variable (t : Tree α) (id : Nat) (short : String) (declaration : α)

theorem nodes_bind (other : Nat) :
    (t.bind id short declaration).nodes[other]? =
      if id = other then t.nodes[other]?.map fun node =>
        { node with types := node.types.insert short declaration }
      else t.nodes[other]? := by
  change (t.nodes.modify id _)[other]? = _
  rw [Array.getElem?_modify]

theorem size_bind : (t.bind id short declaration).size = t.size := by
  simp [size, bind, modify]

theorem name_bind (other : Nat) : (t.bind id short declaration).name other = t.name other := by
  rw [name, nodes_bind]
  split
  · cases hn : t.nodes[other]? <;> simp [name, hn]
  · rfl

theorem parent?_bind (other : Nat) :
    (t.bind id short declaration).parent? other = t.parent? other := by
  rw [parent?, nodes_bind]
  split
  · cases hn : t.nodes[other]? <;> simp [parent?, hn]
  · rfl

theorem child?_bind (other : Nat) (segment : String) :
    (t.bind id short declaration).child? other segment = t.child? other segment := by
  rw [child?, nodes_bind]
  split
  · cases hn : t.nodes[other]? <;> simp [child?, hn]
  · rfl

variable {t id}

theorem type?_bind (h : id < t.size) (other : Nat) (name : String) :
    (t.bind id short declaration).type? other name =
      if other = id ∧ name = short then some declaration else t.type? other name := by
  rw [type?, nodes_bind]
  by_cases hi : id = other
  · subst other
    have hn : t.nodes[id]? = some t.nodes[id] := Array.getElem?_eq_getElem h
    simp [type?, hn, Table.find?_insert]
  · simp [hi, Ne.symm hi, type?]

end bind

theorem openChild_of_some {t : Tree α} {id child : Nat} {segment : String}
    (h : t.child? id segment = some child) : t.openChild id segment = (t, child) := by
  rw [openChild, h]

theorem openChild_of_none {t : Tree α} {id : Nat} {segment : String}
    (h : t.child? id segment = none) :
    t.openChild id segment = (t.addChild id segment, t.size) := by
  rw [openChild, h]

theorem type?_openChild (t : Tree α) (id : Nat) (segment : String) (other : Nat)
    (short : String) : (t.openChild id segment).1.type? other short = t.type? other short := by
  cases hc : t.child? id segment with
  | some child => rw [openChild_of_some hc]
  | none =>
    rw [openChild_of_none hc]
    by_cases hid : id < t.size
    · exact type?_addChild hid segment other short
    · rw [addChild, dif_neg hid]

/-- Opening a path binds nothing. -/
theorem type?_openPath (t : Tree α) (id : Nat) (path : List String) (other : Nat)
    (short : String) : (t.openPath id path).1.type? other short = t.type? other short := by
  induction path generalizing t id with
  | nil => rfl
  | cons segment path ih => rw [openPath, ih, type?_openChild]

end TopicPlugin.Namespace.Tree
