import TopicPlugin.Dotted
import TopicPlugin.Table

/-!
# The tree of namespaces

Every package is a namespace, and so is every package around it, up to the root, which has no name.
The nodes stand in an array in the order of their creation, and a namespace is known by its index
there; the root is number 0. A node points up to its parent and down to its children, and it binds
short names to declarations of any type.

A parent is always created before its children. The type carries this, since it is what makes the
walk from a namespace outwards come to an end.
-/

namespace TopicPlugin.Namespace

open TopicPlugin.Dotted (namespacePath packageSegments qualify)

structure Node (α : Type) where
  /-- A dot before every segment of the path; empty at the root. -/
  name : String
  parent : Option Nat
  children : Table Nat
  types : Table α

structure Tree (α : Type) where
  nodes : Array (Node α)
  parent_lt : ∀ {i p : Nat}, nodes[i]?.bind (·.parent) = some p → p < i

namespace Tree

variable {α : Type}

/-- The index of the root. -/
def root : Nat := 0

def size (t : Tree α) : Nat := t.nodes.size

/-- The qualified name of a namespace. -/
def name (t : Tree α) (id : Nat) : String := t.nodes[id]?.elim "" (·.name)

def parent? (t : Tree α) (id : Nat) : Option Nat := t.nodes[id]?.bind (·.parent)

def child? (t : Tree α) (id : Nat) (segment : String) : Option Nat :=
  t.nodes[id]?.bind (·.children.find? segment)

/-- What a namespace itself binds to a short name. -/
def type? (t : Tree α) (id : Nat) (short : String) : Option α :=
  t.nodes[id]?.bind (·.types.find? short)

/-- The namespace with a path of segments, if each of them has been created. -/
def find? (t : Tree α) (path : List String) : Option Nat :=
  path.foldlM t.child? root

/-- The namespace of a package, if it has been created. -/
def package? (t : Tree α) (package : String) : Option Nat := t.find? (packageSegments package)

/-- A namespace and the ones around it, from the inside to the root. -/
def enclosing (t : Tree α) (id : Nat) : List Nat :=
  match _h : t.parent? id with
  | none => [id]
  | some p => id :: t.enclosing p
termination_by id
decreasing_by exact t.parent_lt (by assumption)

theorem enclosing_of_none {t : Tree α} {id : Nat} (h : t.parent? id = none) :
    t.enclosing id = [id] := by
  rw [enclosing]
  split
  next => rfl
  next p hp =>
    rw [h] at hp
    cases hp

theorem enclosing_of_some {t : Tree α} {id p : Nat} (h : t.parent? id = some p) :
    t.enclosing id = id :: t.enclosing p := by
  rw [enclosing]
  split
  next hnone =>
    rw [h] at hnone
    cases hnone
  next q hq =>
    rw [h, Option.some.injEq] at hq
    rw [hq]

/-- The root alone. -/
def empty : Tree α where
  nodes := #[⟨"", none, .empty, .empty⟩]
  parent_lt := by
    intro i p h
    cases i <;> simp at h

/-- A change of nodes that leaves the parents alone. -/
def modify (t : Tree α) (id : Nat) (f : Node α → Node α) (hf : ∀ n, (f n).parent = n.parent) :
    Tree α where
  nodes := t.nodes.modify id f
  parent_lt := by
    intro i p h
    refine t.parent_lt (i := i) ?_
    rw [← h, Array.getElem?_modify]
    split
    · cases t.nodes[i]? <;> simp [hf]
    · rfl

/-- A last node with a parent that is there already. -/
def push (t : Tree α) (node : Node α) (h : ∀ p, node.parent = some p → p < t.size) : Tree α where
  nodes := t.nodes.push node
  parent_lt := by
    intro i p hp
    rw [Array.getElem?_push] at hp
    split at hp
    · rename_i hi
      exact hi ▸ h p hp
    · exact t.parent_lt hp

/-- A new namespace under a segment of another one. -/
def addChild (t : Tree α) (id : Nat) (segment : String) : Tree α :=
  if h : id < t.size then
    (t.push ⟨qualify (t.name id) segment, some id, .empty, .empty⟩ (by simpa using h)).modify id
      (fun node => { node with children := node.children.insert segment t.size }) (fun _ => rfl)
  else t

/-- The child under a segment, in the tree that has been given one if there was none. -/
def openChild (t : Tree α) (id : Nat) (segment : String) : Tree α × Nat :=
  match t.child? id segment with
  | some child => (t, child)
  | none => (t.addChild id segment, t.size)

/-- The namespace at the end of a path, with every namespace on the way there created. -/
def openPath (t : Tree α) (id : Nat) : List String → Tree α × Nat
  | [] => (t, id)
  | segment :: path => (t.openChild id segment).1.openPath (t.openChild id segment).2 path

/-- The namespace binds the short name to the declaration from now on. -/
def bind (t : Tree α) (id : Nat) (short : String) (declaration : α) : Tree α :=
  t.modify id (fun node => { node with types := node.types.insert short declaration }) fun _ => rfl

/-- A declaration goes into the namespace of a package, under its short name. -/
def register (t : Tree α) (package : Option String) (short : String) (declaration : α) : Tree α :=
  let opened := t.openPath root (namespacePath package)
  opened.1.bind opened.2 short declaration

end Tree

/-- A declaration with the package and the short name that it is registered under. -/
structure Registration (α : Type) where
  package : Option String
  short : String
  declaration : α

/-- The tree that registrations build, one after the other. -/
def Tree.ofRegistrations {α : Type} (registrations : List (Registration α)) : Tree α :=
  registrations.foldl (fun t r => t.register r.package r.short r.declaration) empty

end TopicPlugin.Namespace
