import TopicPlugin.Proofs.Namespace.Renumbering

/-!
# What a look-up reads of the declarations

A look-up goes through a tree by the names of its namespaces, and through a declaration by the names
of the messages nested in it. The outline of a message is just that: its name and the outlines of
its nested messages. Trees that agree in everything but the fields and options of their declarations
give every reference the same qualified name, or none.
-/

namespace TopicPlugin

/-- The message without its fields and options, and without those of the messages nested in it. -/
def Message.outline : Message → Message
  | ⟨name, _, nested, _⟩ => { name, nested := nested.map outline }

namespace Message

abbrev SameOutline (m m' : Message) : Prop := m.outline = m'.outline

theorem outline_eq (m : Message) :
    m.outline = { name := m.name, nested := m.nested.map outline } := by
  cases m
  rw [outline]

theorem name_outline (m : Message) : m.outline.name = m.name := by
  rw [outline_eq]

theorem nested?_outline (m : Message) (name : String) :
    m.outline.nested? name = (m.nested? name).map outline := by
  have hname : (fun inner : Message => decide (inner.name = name)) ∘ outline =
      fun inner => decide (inner.name = name) := by
    funext inner
    rw [Function.comp_apply, name_outline]
  rw [nested?, nested?, outline_eq, List.find?_map, hname]

end Message

namespace Namespace

/-- A walk down through nested messages comes to the same name in messages of one outline. -/
theorem name_descend_of_outline {m m' : Message} (h : m.SameOutline m') (name : String)
    (path : List String) :
    (descend m name path).map (·.name) = (descend m' name path).map (·.name) := by
  induction path generalizing m m' name with
  | nil => rfl
  | cons segment path ih =>
    have hstep : (m.nested? segment).map Message.outline =
        (m'.nested? segment).map Message.outline := by
      rw [← Message.nested?_outline, h, Message.nested?_outline]
    unfold descend
    cases hn : m.nested? segment with
    | none =>
      rw [hn, Option.map_none] at hstep
      rw [Option.map_eq_none_iff.mp hstep.symm]
    | some inner =>
      rw [hn, Option.map_some] at hstep
      obtain ⟨inner', hn', hinner⟩ := Option.map_eq_some_iff.mp hstep.symm
      rw [hn']
      exact ih hinner.symm (Dotted.qualify name segment)

namespace Tree

variable {α : Type} {same : α → α → Prop}

/-- Trees with the same namespaces under the same indices, which bind related declarations to the
same names. -/
structure Alike (same : α → α → Prop) (t t' : Tree α) : Prop where
  size_eq : t.size = t'.size
  name_eq : ∀ id, t.name id = t'.name id
  parent_eq : ∀ id, t.parent? id = t'.parent? id
  child_eq : ∀ id segment, t.child? id segment = t'.child? id segment
  type_same : ∀ id short, Option.Rel same (t.type? id short) (t'.type? id short)

theorem alike_empty : Alike same (empty : Tree α) empty where
  size_eq := rfl
  name_eq _ := rfl
  parent_eq _ := rfl
  child_eq _ _ := rfl
  type_same id short := by
    rw [type?_empty]
    exact .none

namespace Alike

variable {t t' : Tree α}

theorem addChild (h : Alike same t t') (id : Nat) (segment : String) :
    Alike same (t.addChild id segment) (t'.addChild id segment) := by
  by_cases hid : id < t.size
  · have hid' : id < t'.size := h.size_eq ▸ hid
    constructor
    · rw [size_addChild hid, size_addChild hid', h.size_eq]
    · intro other
      rw [name_addChild hid, name_addChild hid', h.size_eq, h.name_eq, h.name_eq]
    · intro other
      rw [parent?_addChild hid, parent?_addChild hid', h.size_eq, h.parent_eq]
    · intro other s
      rw [child?_addChild hid, child?_addChild hid', h.size_eq, h.child_eq]
    · intro other short
      rw [type?_addChild hid, type?_addChild hid']
      exact h.type_same other short
  · have hid' : ¬id < t'.size := h.size_eq ▸ hid
    rw [Tree.addChild, Tree.addChild, dif_neg hid, dif_neg hid']
    exact h

theorem bind (h : Alike same t t') {id : Nat} (hid : id < t.size) (short : String)
    {declaration declaration' : α} (hsame : same declaration declaration') :
    Alike same (t.bind id short declaration) (t'.bind id short declaration') := by
  constructor
  · rw [size_bind, size_bind, h.size_eq]
  · intro other
    rw [name_bind, name_bind, h.name_eq]
  · intro other
    rw [parent?_bind, parent?_bind, h.parent_eq]
  · intro other segment
    rw [child?_bind, child?_bind, h.child_eq]
  · intro other name
    rw [type?_bind short declaration hid, type?_bind short declaration' (h.size_eq ▸ hid)]
    split
    · exact .some hsame
    · exact h.type_same other name

theorem openChild (h : Alike same t t') (id : Nat) (segment : String) :
    Alike same (t.openChild id segment).1 (t'.openChild id segment).1 ∧
      (t.openChild id segment).2 = (t'.openChild id segment).2 := by
  cases hc : t.child? id segment with
  | some child =>
    rw [openChild_of_some hc, openChild_of_some (h.child_eq id segment ▸ hc)]
    exact ⟨h, rfl⟩
  | none =>
    rw [openChild_of_none hc, openChild_of_none (h.child_eq id segment ▸ hc)]
    exact ⟨h.addChild id segment, h.size_eq⟩

theorem openPath (h : Alike same t t') (id : Nat) (path : List String) :
    Alike same (t.openPath id path).1 (t'.openPath id path).1 ∧
      (t.openPath id path).2 = (t'.openPath id path).2 := by
  induction path generalizing t t' id with
  | nil => exact ⟨h, rfl⟩
  | cons segment path ih =>
    obtain ⟨hopened, hid⟩ := h.openChild id segment
    rw [Tree.openPath, Tree.openPath, ← hid]
    exact ih hopened _

end Alike

/-- Registrations that go under the same keys, of declarations that are related. -/
structure SameKey (same : α → α → Prop) (r r' : Registration α) : Prop where
  package_eq : r.package = r'.package
  short_eq : r.short = r'.short
  declaration_same : same r.declaration r'.declaration

theorem alike_ofRegistrations {registrations others : List (Registration α)}
    (h : List.Forall₂ (SameKey same) registrations others) :
    Alike same (ofRegistrations registrations) (ofRegistrations others) := by
  have hreverse := List.rel_reverse h
  rw [← registrations.reverse_reverse, ← others.reverse_reverse]
  generalize registrations.reverse = rs at hreverse
  generalize others.reverse = rs' at hreverse
  induction hreverse with
  | nil => exact alike_empty
  | @cons r r' rs rs' hkey _ ih =>
    rw [List.reverse_cons, List.reverse_cons, ofRegistrations_concat, ofRegistrations_concat]
    obtain ⟨paths, hpaths, -⟩ := exists_represents rs.reverse
    obtain ⟨added, hadded, hopened, -⟩ :=
      hpaths.openPath hpaths.root_path (Dotted.namespacePath r.package)
    obtain ⟨halike, hid⟩ := ih.openPath root (Dotted.namespacePath r.package)
    rw [register, register, ← hkey.package_eq, ← hkey.short_eq, ← hid]
    exact halike.bind (hadded.lt_size hopened) r.short hkey.declaration_same

namespace Alike

theorem find?_eq {t t' : Tree α} (h : Alike same t t') (path : List String) :
    t.find? path = t'.find? path := by
  have hchild : t.child? = t'.child? := by
    funext id segment
    exact h.child_eq id segment
  rw [find?, find?, hchild]

theorem enclosing_eq {t t' : Tree α} (h : Alike same t t') (id : Nat) :
    t.enclosing id = t'.enclosing id := by
  induction id using Nat.strongRecOn with
  | ind id ih =>
    cases hp : t.parent? id with
    | none =>
      have hp' : t'.parent? id = none := h.parent_eq id ▸ hp
      rw [enclosing_of_none hp, enclosing_of_none hp']
    | some p =>
      have hp' : t'.parent? id = some p := h.parent_eq id ▸ hp
      rw [enclosing_of_some hp, enclosing_of_some hp', ih p (t.parent_lt hp)]

variable {t t' : Tree Message} (h : Alike Message.SameOutline t t')

include h

theorem name_lookUp (id : Nat) (path : List String) :
    (t.lookUp id path).map (·.name) = (t'.lookUp id path).map (·.name) := by
  induction path generalizing id with
  | nil => rfl
  | cons segment path ih =>
    have htype := h.type_same id segment
    cases path with
    | nil =>
      rw [lookUp, lookUp, h.name_eq]
      rcases cases_of_rel htype with ⟨hm, hm'⟩ | ⟨m, m', hm, hm', -⟩
      · rw [hm, hm']
      · rw [hm, hm']
        rfl
    | cons next path =>
      rw [lookUp, lookUp, h.name_eq, h.child_eq]
      · cases t'.child? id segment with
        | some child => exact ih child
        | none =>
          rcases cases_of_rel htype with ⟨hm, hm'⟩ | ⟨m, m', hm, hm', hsame⟩
          · rw [hm, hm']
          · rw [hm, hm']
            exact name_descend_of_outline hsame _ _
      -- The equation used is the one for a path that goes on.
      all_goals exact List.cons_ne_nil next path

theorem name_lookUpOutwards (scope : Nat) (path : List String) :
    (t.lookUpOutwards scope path).map (·.name) = (t'.lookUpOutwards scope path).map (·.name) := by
  rw [lookUpOutwards, lookUpOutwards, h.enclosing_eq, List.map_findSome?, List.map_findSome?]
  congr 1
  funext id
  exact h.name_lookUp id path

/-- The name that a reference resolves to inside a message depends on outlines only. -/
theorem name_resolveWithin {m m' : Message} (hm : m.SameOutline m') (scope : Nat)
    (name reference : String) :
    (t.resolveWithin scope m name reference).map (·.name) =
      (t'.resolveWithin scope m' name reference).map (·.name) := by
  rw [resolveWithin, resolveWithin]
  cases Dotted.Reference.ofString? reference with
  | none => rfl
  | some written =>
    cases written with
    | absolute path => exact h.name_lookUp root path
    | relative path =>
      change ((descend m name path).or _).map _ = ((descend m' name path).or _).map _
      rw [Option.map_or, Option.map_or, name_descend_of_outline hm, h.name_lookUpOutwards]

end Alike

end Tree

end Namespace

end TopicPlugin
